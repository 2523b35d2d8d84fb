import Cynthia.Io.Interest

/-! Readiness is never reported from a stale event. The ticks that a registration
records are those of its time, so a direction that passes them was stamped by a later
`react`. An event for an earlier owner of the key stamps a source only in the `react`
during which the source was made, and that stamp passes no recorded ticks. -/

namespace Cynthia.Io.Reactor

open Transition Utils

variable {s t : State} {id f fd : Nat} {dir : Dir} {cx : Waker} {cell : Cell} {τ : Ticks}

/-- A future knows its source from the call of `ready` on, and has ticks only after
it was polled. -/
structure Held (s : State) : Prop where
  polled : ∀ id dir f i wasEmpty cx, (s.cells id).crit = .futureTicks dir f i wasEmpty cx →
    (s.futures f).source = id ∧ (s.futures f).dir = dir ∧ (s.futures f).stage ≠ .unborn
  made : ∀ f, (s.futures f).stage ≠ .unborn → (s.futures f).source < s.created
  fresh : ∀ f, (s.futures f).stage = .unborn → (s.futures f).ticks = none

theorem held_new : Held new := by
  constructor <;> simp [new]

/-- The holder of a lock goes on, on behalf of the same future if of any. -/
theorem Held.setCell (h : Held s) (hcells : t.cells = Function.update s.cells id cell)
    (hfutures : t.futures = s.futures) (hcreated : s.created ≤ t.created)
    (hcrit : ∀ dir f i wasEmpty cx, cell.crit = .futureTicks dir f i wasEmpty cx →
      (s.futures f).source = id ∧ (s.futures f).dir = dir ∧ (s.futures f).stage ≠ .unborn) :
    Held t := by
  refine ⟨fun other => ?_, fun f hf => ?_, fun f => ?_⟩
  · rw [hcells, hfutures]
    by_cases he : other = id
    · rw [he, Function.update_self]
      exact hcrit
    · rw [Function.update_of_ne he]
      exact h.polled other
  · rw [hfutures] at hf ⊢
    exact Nat.lt_of_lt_of_le (h.made f hf) hcreated
  · rw [hfutures]
    exact h.fresh f

/-- A future goes on with its own source. -/
theorem held_setFuture {future : Future} (hcells : t.cells = s.cells)
    (hfutures : t.futures = Function.update s.futures f future) (hcreated : t.created = s.created)
    (hold : (s.futures f).stage ≠ .unborn) (hsource : future.source = (s.futures f).source)
    (hdir : future.dir = (s.futures f).dir) (hstage : future.stage ≠ .unborn) (h : Held s) :
    Held t := by
  refine ⟨fun id dir g i wasEmpty cx => ?_, fun g => ?_, fun g => ?_⟩
  · rw [hcells, hfutures]
    intro hcrit
    obtain ⟨hid, hd, hborn⟩ := h.polled id dir g i wasEmpty cx hcrit
    by_cases he : g = f
    · subst he
      rw [Function.update_self]
      exact ⟨hsource.trans hid, hdir.trans hd, hstage⟩
    · rw [Function.update_of_ne he]
      exact ⟨hid, hd, hborn⟩
  · rw [hfutures, hcreated]
    by_cases he : g = f
    · subst he
      rw [Function.update_self, hsource]
      exact fun _ => h.made g hold
    · rw [Function.update_of_ne he]
      exact h.made g
  · rw [hfutures]
    by_cases he : g = f
    · subst he
      rw [Function.update_self]
      exact fun hunborn => absurd hunborn hstage
    · rw [Function.update_of_ne he]
      exact h.fresh g

theorem held_pollReady (h : Held s) (ht : pollReady s id dir cx = some t) : Held t := by
  simp only [pollReady] at ht
  split at ht
  · split at ht
    · obtain rfl := Option.some.inj ht
      exact h.setCell rfl rfl le_rfl (h.polled id)
    · split at ht
      · obtain rfl := Option.some.inj ht
        exact h
      · obtain rfl := Option.some.inj ht
        exact h.setCell rfl rfl le_rfl fun _ _ _ _ _ hx => Crit.noConfusion hx
  · cases ht

theorem held_newFuture (hs : Slab s) (h : Held s) (ht : newFuture s f id dir = some t) :
    Held t := by
  simp only [newFuture] at ht
  split at ht
  · rename_i hcond
    obtain ⟨hunborn, hlive⟩ := hcond
    obtain rfl := Option.some.inj ht
    have hlt : id < s.created := Nat.lt_of_not_le fun hle => by
      rw [hs.unborn id hle] at hlive
      cases hlive
    refine ⟨fun other dir' g i wasEmpty cx hcrit => ?_, fun g => ?_, fun g => ?_⟩
    all_goals simp only [Reactor.setFuture]
    · obtain ⟨hid, hd, hborn⟩ := h.polled other dir' g i wasEmpty cx hcrit
      have hne : g ≠ f := fun he => hborn (he ▸ hunborn)
      rw [Function.update_of_ne hne]
      exact ⟨hid, hd, hborn⟩
    · by_cases he : g = f
      · subst he
        rw [Function.update_self]
        exact fun _ => hlt
      · rw [Function.update_of_ne he]
        exact h.made g
    · by_cases he : g = f
      · subst he
        rw [Function.update_self]
        exact FutureStage.noConfusion
      · rw [Function.update_of_ne he]
        exact h.fresh g
  · cases ht

theorem held_pollFuture (h : Held s) (ht : pollFuture s f cx = some t) : Held t := by
  simp only [pollFuture] at ht
  split at ht
  · rename_i hcond
    obtain ⟨hlive, -, hfree⟩ := hcond
    have hborn : (s.futures f).stage ≠ .unborn := by
      rw [hlive]
      exact FutureStage.noConfusion
    split at ht
    · obtain rfl := Option.some.inj ht
      exact held_setFuture (s := s) rfl rfl rfl hborn rfl rfl (fun hx => FutureStage.noConfusion hx) h
    · split at ht
      · obtain rfl := Option.some.inj ht
        refine h.setCell rfl rfl le_rfl fun _ _ _ _ _ hx => ?_
        split at hx <;> cases hx
      · split at ht
        · obtain rfl := Option.some.inj ht
          refine held_setFuture (s := Reactor.setCell s _ _) rfl rfl rfl hborn rfl rfl hborn
            (h.setCell rfl rfl le_rfl fun _ _ _ _ _ hx => ?_)
          obtain ⟨rfl, rfl, -⟩ := Crit.futureTicks.inj hx
          exact ⟨rfl, rfl, hborn⟩
        · cases ht
  · cases ht

theorem held_dropFuture (h : Held s) (ht : dropFuture s f = some t) : Held t := by
  simp only [dropFuture] at ht
  split at ht
  · rename_i hcond
    have hborn : (s.futures f).stage ≠ .unborn := by
      rcases hcond with hst | hst <;> rw [hst] <;> exact FutureStage.noConfusion
    split at ht
    · obtain rfl := Option.some.inj ht
      exact held_setFuture (s := s) rfl rfl rfl hborn rfl rfl (fun hx => FutureStage.noConfusion hx) h
    · split at ht
      · obtain rfl := Option.some.inj ht
        exact held_setFuture (s := Reactor.setCell s _ _) rfl rfl rfl hborn rfl rfl
          (fun hx => FutureStage.noConfusion hx) (h.setCell rfl rfl le_rfl (h.polled _))
      · cases ht
  · cases ht

theorem held_ticksStep (h : Held s) (ht : ticksStep s id = some t) : Held t := by
  simp only [ticksStep] at ht
  split at ht
  · obtain rfl := Option.some.inj ht
    refine h.setCell rfl rfl le_rfl fun _ _ _ _ _ hx => ?_
    split at hx <;> cases hx
  · rename_i dir f i wasEmpty cx hcrit
    obtain rfl := Option.some.inj ht
    obtain ⟨-, -, hborn⟩ := h.polled id _ _ _ _ _ hcrit
    refine held_setFuture (s := Reactor.setCell s _ _) rfl rfl rfl hborn rfl rfl hborn
      (h.setCell rfl rfl le_rfl fun _ _ _ _ _ hx => ?_)
    split at hx <;> cases hx
  · cases ht

theorem held_reactStep (h : Held s) (ht : reactStep s = some t) : Held t := by
  unfold reactStep at ht
  split at ht
  · obtain rfl := Option.some.inj ht
    exact { h with }
  · obtain rfl := Option.some.inj ht
    exact { h with }
  · obtain rfl := Option.some.inj ht
    exact { h with }
  · split at ht
    · obtain rfl := Option.some.inj ht
      exact { h with }
    · cases ht
  · split at ht
    · obtain rfl := Option.some.inj ht
      exact { h with }
    · split at ht
      · obtain rfl := Option.some.inj ht
        exact { h with }
      · dsimp only at ht
        split at ht
        · obtain rfl := Option.some.inj ht
          exact h.setCell rfl rfl le_rfl fun _ _ _ _ _ hx => Crit.noConfusion hx
        · cases ht
  · obtain rfl := Option.some.inj ht
    exact h.setCell rfl rfl le_rfl fun _ _ _ _ _ hx => Crit.noConfusion hx

theorem held_step {a : Act} (hs : Slab s) (h : Held s) (ht : step s a = some t) : Held t := by
  cases a with
  | addIo raw =>
    obtain ⟨sources, hins, -⟩ := Colo.insert_spec hs.ok hs.unlimited s.created
    simp only [step, addIo, hins] at ht
    split at ht
    · obtain rfl := Option.some.inj ht
      exact h.setCell rfl rfl (Nat.le_succ _) fun _ _ _ _ _ hx => Crit.noConfusion hx
    · cases ht
  | addPoller id ok =>
    simp only [step, addPoller] at ht
    repeat' split at ht
    · obtain rfl := Option.some.inj ht
      exact h.setCell rfl rfl le_rfl (h.polled id)
    · obtain rfl := Option.some.inj ht
      exact h.setCell rfl rfl le_rfl (h.polled id)
    · cases ht
  | addUndo id =>
    simp only [step, addUndo] at ht
    split at ht
    · obtain rfl := Option.some.inj ht
      exact h.setCell rfl rfl le_rfl (h.polled id)
    · cases ht
  | removeIo id =>
    simp only [step, removeIo] at ht
    split at ht
    · obtain rfl := Option.some.inj ht
      exact h.setCell rfl rfl le_rfl (h.polled id)
    · cases ht
  | removePoller =>
    simp only [step, removePoller] at ht
    split at ht
    · rename_i id _
      obtain rfl := Option.some.inj ht
      exact h.setCell rfl rfl le_rfl (h.polled id)
    · cases ht
  | pollReady id dir cx => exact held_pollReady h ht
  | newFuture f id dir => exact held_newFuture hs h ht
  | pollFuture f cx => exact held_pollFuture h ht
  | dropFuture f => exact held_dropFuture h ht
  | ticks id => exact held_ticksStep h ht
  | modify id =>
    simp only [step, modifyStep] at ht
    split at ht
    · obtain rfl := Option.some.inj ht
      exact h.setCell rfl rfl le_rfl fun _ _ _ _ _ hx => Crit.noConfusion hx
    · cases ht
  | collect fd readable writable =>
    simp only [step, collect] at ht
    repeat' split at ht
    · obtain rfl := Option.some.inj ht
      exact { h with }
    all_goals cases ht
  | react => exact held_reactStep h ht

/-! ## Recorded ticks -/

/-- A registration of the direction has recorded these ticks, in the source for
`poll_ready` and in the future for `ready`. -/
def Recorded (s : State) (id : Nat) (dir : Dir) (τ : Ticks) : Prop :=
  ((s.cells id).src.state dir).ticks = some τ ∨
    ∃ f, (s.futures f).source = id ∧ (s.futures f).dir = dir ∧ (s.futures f).ticks = some τ

/-- The tick of a direction is one of the two recorded ones, or it was stamped by a
later `react` for an event of the source itself. -/
structure Sound (s : State) (id : Nat) (dir : Dir) (τ : Ticks) : Prop where
  since : τ.a = τ.since
  le : τ.since ≤ s.reacts
  born : (s.cells id).born ≤ τ.since
  stamp : ((s.cells id).src.state dir).tick = τ.a ∨ ((s.cells id).src.state dir).tick = τ.b ∨
    τ.since < ((s.cells id).src.state dir).tick ∧
      ⟨id, dir, ((s.cells id).src.state dir).tick⟩ ∈ s.delivered

/-- The ticker counts the `react` calls, and recorded ticks are sound until it wraps
around. An event that is handled for a source other than its owner is handled in the
`react` during which that source was made. -/
structure Stamped (s : State) : Prop where
  ticker : s.ticker = s.reacts % 2 ^ 64
  tick : s.react ≠ .idle → s.react ≠ .increment → s.tick = s.reacts % 2 ^ 64
  born : ∀ id, (s.cells id).born ≤ s.reacts
  pending : ∀ c ∈ s.events, ∀ id, s.sources.get c.ev.key = some id →
    c.owner = id ∨ (s.cells id).born = s.reacts
  sound : s.reacts < 2 ^ 64 → ∀ id dir τ, Recorded s id dir τ → Sound s id dir τ
  answered : s.reacts < 2 ^ 64 → ∀ r ∈ s.answers, ∃ d ∈ s.delivered,
    d.source = r.source ∧ d.dir = r.dir ∧ r.reacts < d.reacts

theorem stamped_new : Stamped new := by
  constructor <;> simp [new, Recorded, Private.new]

theorem Sound.passed (h : Sound s id dir τ)
    (hp : τ.passed ((s.cells id).src.state dir).tick = true) :
    τ.since < ((s.cells id).src.state dir).tick ∧
      ⟨id, dir, ((s.cells id).src.state dir).tick⟩ ∈ s.delivered := by
  simp only [Ticks.passed, Bool.and_eq_true, decide_eq_true_eq] at hp
  rcases h.stamp with ha | hb | hlater
  · exact absurd ha hp.1
  · exact absurd hb hp.2
  · exact hlater

/-- Ticks stay sound while no later event is handled. -/
theorem Sound.mono (h : Sound s id dir τ) (hborn : (t.cells id).born = (s.cells id).born)
    (htick : ((t.cells id).src.state dir).tick = ((s.cells id).src.state dir).tick)
    (hreacts : s.reacts ≤ t.reacts) (hdel : s.delivered ⊆ t.delivered) : Sound t id dir τ := by
  obtain ⟨hsince, hle, hb, hstamp⟩ := h
  refine ⟨hsince, hle.trans hreacts, by rwa [hborn], ?_⟩
  rw [htick]
  exact hstamp.imp_right fun hr => hr.imp_right fun ⟨hlt, hmem⟩ => ⟨hlt, hdel hmem⟩

/-- A step of a call on a source: no tick moves, the ticks it records are those of
now, and it answers `Ready(Ok)` for recorded ticks that are passed. -/
structure Quiet (s t : State) : Prop where
  ticker : t.ticker = s.ticker
  reacts : t.reacts = s.reacts
  react : t.react = s.react
  tick : t.tick = s.tick
  events : t.events = s.events
  delivered : t.delivered = s.delivered
  found : ∀ key id, t.sources.get key = some id → s.sources.get key = some id
  born : ∀ id, (t.cells id).born = (s.cells id).born
  ticks : ∀ id dir, ((t.cells id).src.state dir).tick = ((s.cells id).src.state dir).tick
  recorded : ∀ id dir τ, Recorded t id dir τ →
    Recorded s id dir τ ∨ τ = record s ((s.cells id).src.state dir)
  answers : t.answers = s.answers ∨ ∃ id dir τ, Recorded s id dir τ ∧
    τ.passed ((s.cells id).src.state dir).tick = true ∧
    t.answers = ⟨id, dir, τ.since⟩ :: s.answers

theorem Stamped.quiet (h : Stamped s) (hq : Quiet s t) : Stamped t := by
  have hdel : s.delivered ⊆ t.delivered := fun _ hd => by rwa [hq.delivered]
  refine ⟨?_, ?_, fun id => ?_, fun c hc id hget => ?_, fun hlt id dir τ hrec => ?_,
    fun hlt r hr => ?_⟩
  · rw [hq.ticker, hq.reacts]
    exact h.ticker
  · rw [hq.react, hq.tick, hq.reacts]
    exact h.tick
  · rw [hq.born, hq.reacts]
    exact h.born id
  · rw [hq.born, hq.reacts]
    rw [hq.events] at hc
    exact h.pending c hc id (hq.found _ _ hget)
  · rw [hq.reacts] at hlt
    rcases hq.recorded id dir τ hrec with hold | rfl
    · exact (h.sound hlt id dir τ hold).mono (hq.born id) (hq.ticks id dir) hq.reacts.ge hdel
    · refine ⟨?_, hq.reacts.ge, ?_, .inr (.inl (hq.ticks id dir))⟩
      · exact h.ticker.trans (Nat.mod_eq_of_lt hlt)
      · rw [hq.born]
        exact h.born id
  · rw [hq.reacts] at hlt
    rw [hq.delivered]
    rcases hq.answers with hsame | ⟨id, dir, τ, hrec, hp, hnew⟩
    · rw [hsame] at hr
      exact h.answered hlt r hr
    · rw [hnew] at hr
      rcases List.mem_cons.mp hr with rfl | hr
      · obtain ⟨hlater, hmem⟩ := (h.sound hlt id dir τ hrec).passed hp
        exact ⟨_, hmem, rfl, rfl, hlater⟩
      · exact h.answered hlt r hr

/-! ## The calls on a source -/

/-- `react` stands still. -/
structure Still (s t : State) : Prop where
  ticker : t.ticker = s.ticker
  reacts : t.reacts = s.reacts
  react : t.react = s.react
  tick : t.tick = s.tick
  events : t.events = s.events
  delivered : t.delivered = s.delivered
  found : ∀ key id, t.sources.get key = some id → s.sources.get key = some id

/-- The ticks that a future has after a step are the ones it had, or those of now. -/
def FuturesKept (s t : State) : Prop :=
  ∀ f τ, (t.futures f).ticks = some τ → (t.futures f).source = (s.futures f).source ∧
    (t.futures f).dir = (s.futures f).dir ∧ ((s.futures f).ticks = some τ ∨
      τ = record s ((s.cells (s.futures f).source).src.state (s.futures f).dir))

theorem futuresKept_of_eq (h : t.futures = s.futures) : FuturesKept s t := by
  intro f τ hτ
  rw [h] at hτ ⊢
  exact ⟨rfl, rfl, .inl hτ⟩

/-- A future that keeps its source, its direction and its ticks. -/
theorem futuresKept_update {future : Future}
    (h : t.futures = Function.update s.futures f future)
    (hsource : future.source = (s.futures f).source) (hdir : future.dir = (s.futures f).dir)
    (hticks : ∀ τ, future.ticks = some τ → (s.futures f).ticks = some τ ∨
      τ = record s ((s.cells (s.futures f).source).src.state (s.futures f).dir)) :
    FuturesKept s t := by
  intro g τ hτ
  rw [h] at hτ ⊢
  by_cases he : g = f
  · subst he
    rw [Function.update_self] at hτ ⊢
    exact ⟨hsource, hdir, hticks τ hτ⟩
  · rw [Function.update_of_ne he] at hτ ⊢
    exact ⟨rfl, rfl, .inl hτ⟩

theorem quiet_setCell (hstill : Still s t) (hcells : t.cells = Function.update s.cells id cell)
    (hborn : cell.born = (s.cells id).born)
    (htick : ∀ dir, (cell.src.state dir).tick = ((s.cells id).src.state dir).tick)
    (hticks : ∀ dir τ, (cell.src.state dir).ticks = some τ →
      ((s.cells id).src.state dir).ticks = some τ ∨
        τ = record s ((s.cells id).src.state dir)) (hfutures : FuturesKept s t)
    (hanswers : t.answers = s.answers ∨ ∃ id dir τ, Recorded s id dir τ ∧
      τ.passed ((s.cells id).src.state dir).tick = true ∧
      t.answers = ⟨id, dir, τ.since⟩ :: s.answers) : Quiet s t := by
  refine { hstill with
    born := fun other => ?_
    ticks := fun other dir => ?_
    recorded := fun other dir τ hrec => ?_
    answers := hanswers }
  · rw [hcells]
    by_cases he : other = id
    · rw [he, Function.update_self]
      exact hborn
    · rw [Function.update_of_ne he]
  · rw [hcells]
    by_cases he : other = id
    · rw [he, Function.update_self]
      exact htick dir
    · rw [Function.update_of_ne he]
  · rcases hrec with hcell | ⟨f, hsource, hdir, hτ⟩
    · rw [hcells] at hcell
      by_cases he : other = id
      · rw [he, Function.update_self] at hcell
        rw [he]
        exact (hticks dir τ hcell).imp_left .inl
      · rw [Function.update_of_ne he] at hcell
        exact .inl (.inl hcell)
    · obtain ⟨hsource', hdir', hτ'⟩ := hfutures f τ hτ
      rw [hsource'] at hsource
      rw [hdir'] at hdir
      rcases hτ' with hτ' | hτ'
      · exact .inl (.inr ⟨f, hsource, hdir, hτ'⟩)
      · rw [hsource, hdir] at hτ'
        exact .inr hτ'

/-- The case of a call that leaves every source alone. -/
theorem quiet_setFuture (hstill : Still s t) (hcells : t.cells = s.cells)
    (hfutures : FuturesKept s t)
    (hanswers : t.answers = s.answers ∨ ∃ id dir τ, Recorded s id dir τ ∧
      τ.passed ((s.cells id).src.state dir).tick = true ∧
      t.answers = ⟨id, dir, τ.since⟩ :: s.answers) : Quiet s t :=
  quiet_setCell hstill (hcells.trans (Function.update_eq_self 0 s.cells).symm) rfl (fun _ => rfl)
    (fun _ _ hx => .inl hx) hfutures hanswers

/-- The case of a call that leaves the two directions alone. -/
theorem quiet_setStage (hstill : Still s t) (hcells : t.cells = Function.update s.cells id cell)
    (hborn : cell.born = (s.cells id).born) (hsrc : cell.src = (s.cells id).src)
    (hfutures : t.futures = s.futures) (hanswers : t.answers = s.answers) : Quiet s t := by
  refine quiet_setCell hstill hcells hborn (fun dir => ?_) (fun dir τ hτ => ?_)
    (futuresKept_of_eq hfutures) (.inl hanswers)
  · rw [hsrc]
  · rw [hsrc] at hτ
    exact .inl hτ

/-- The case of a call that changes one direction. -/
theorem quiet_setDir {p : Private} {crit : Crit} (hstill : Still s t)
    (hcells : t.cells = Function.update s.cells id
      { s.cells id with src := (s.cells id).src.setDir dir p, crit := crit })
    (htick : p.tick = ((s.cells id).src.state dir).tick)
    (hticks : ∀ τ, p.ticks = some τ → ((s.cells id).src.state dir).ticks = some τ ∨
      τ = record s ((s.cells id).src.state dir)) (hfutures : FuturesKept s t)
    (hanswers : t.answers = s.answers ∨ ∃ id dir τ, Recorded s id dir τ ∧
      τ.passed ((s.cells id).src.state dir).tick = true ∧
      t.answers = ⟨id, dir, τ.since⟩ :: s.answers) : Quiet s t := by
  refine quiet_setCell hstill hcells rfl (fun other => ?_) (fun other τ hτ => ?_) hfutures hanswers
  · by_cases he : other = dir
    · rw [he, Source.setDir_self]
      exact htick
    · rw [Source.setDir_of_ne he]
  · by_cases he : other = dir
    · rw [he, Source.setDir_self] at hτ
      rw [he]
      exact hticks τ hτ
    · rw [Source.setDir_of_ne he] at hτ
      exact .inl hτ

theorem quiet_pollReady (ht : pollReady s id dir cx = some t) : Quiet s t := by
  simp only [pollReady] at ht
  split at ht
  · split at ht
    · rename_i τ hτ
      obtain ⟨hticks, hp⟩ := Option.filter_eq_some_iff.mp hτ
      obtain rfl := Option.some.inj ht
      exact quiet_setDir ⟨rfl, rfl, rfl, rfl, rfl, rfl, fun _ _ hx => hx⟩ rfl rfl
        (fun _ hx => (by cases hx)) (futuresKept_of_eq rfl)
        (.inr ⟨id, dir, τ, .inl hticks, hp, rfl⟩)
    · split at ht
      · obtain rfl := Option.some.inj ht
        exact ⟨rfl, rfl, rfl, rfl, rfl, rfl, fun _ _ hx => hx, fun _ => rfl, fun _ _ => rfl,
          fun _ _ _ hx => .inl hx, .inl rfl⟩
      · obtain rfl := Option.some.inj ht
        exact quiet_setDir ⟨rfl, rfl, rfl, rfl, rfl, rfl, fun _ _ hx => hx⟩ rfl rfl
          (fun _ hx => .inl hx) (futuresKept_of_eq rfl) (.inl rfl)
  · cases ht

theorem quiet_pollFuture (ht : pollFuture s f cx = some t) : Quiet s t := by
  simp only [pollFuture] at ht
  split at ht
  · split at ht
    · rename_i τ hτ
      obtain ⟨hticks, hp⟩ := Option.filter_eq_some_iff.mp hτ
      obtain rfl := Option.some.inj ht
      exact quiet_setFuture ⟨rfl, rfl, rfl, rfl, rfl, rfl, fun _ _ hx => hx⟩ rfl
        (futuresKept_update rfl rfl rfl fun _ hx => .inl hx)
        (.inr ⟨_, _, τ, .inr ⟨f, rfl, rfl, hticks⟩, hp, rfl⟩)
    · split at ht
      · obtain rfl := Option.some.inj ht
        exact quiet_setDir ⟨rfl, rfl, rfl, rfl, rfl, rfl, fun _ _ hx => hx⟩ rfl rfl
          (fun _ hx => .inl hx) (futuresKept_of_eq rfl) (.inl rfl)
      · split at ht
        · obtain rfl := Option.some.inj ht
          exact quiet_setDir ⟨rfl, rfl, rfl, rfl, rfl, rfl, fun _ _ hx => hx⟩ rfl rfl
            (fun _ hx => .inl hx) (futuresKept_update rfl rfl rfl fun _ hx => .inl hx) (.inl rfl)
        · cases ht
  · cases ht

theorem quiet_dropFuture (ht : dropFuture s f = some t) : Quiet s t := by
  simp only [dropFuture] at ht
  split at ht
  · split at ht
    · obtain rfl := Option.some.inj ht
      exact quiet_setFuture ⟨rfl, rfl, rfl, rfl, rfl, rfl, fun _ _ hx => hx⟩ rfl
        (futuresKept_update rfl rfl rfl fun _ hx => .inl hx) (.inl rfl)
    · split at ht
      · obtain rfl := Option.some.inj ht
        exact quiet_setDir ⟨rfl, rfl, rfl, rfl, rfl, rfl, fun _ _ hx => hx⟩ rfl rfl
          (fun _ hx => .inl hx) (futuresKept_update rfl rfl rfl fun _ hx => .inl hx) (.inl rfl)
      · cases ht
  · cases ht

theorem quiet_ticksStep (h : Held s) (ht : ticksStep s id = some t) : Quiet s t := by
  simp only [ticksStep] at ht
  split at ht
  · obtain rfl := Option.some.inj ht
    exact quiet_setDir ⟨rfl, rfl, rfl, rfl, rfl, rfl, fun _ _ hx => hx⟩ rfl rfl
      (fun _ hx => .inr (Option.some.inj hx).symm) (futuresKept_of_eq rfl) (.inl rfl)
  · rename_i dir f i wasEmpty cx hcrit
    obtain rfl := Option.some.inj ht
    obtain ⟨rfl, rfl, -⟩ := h.polled id _ _ _ _ _ hcrit
    exact quiet_setDir ⟨rfl, rfl, rfl, rfl, rfl, rfl, fun _ _ hx => hx⟩ rfl rfl
      (fun _ hx => .inl hx)
      (futuresKept_update rfl rfl rfl fun _ hx => .inr (Option.some.inj hx).symm) (.inl rfl)
  · cases ht

theorem quiet_newFuture (ht : newFuture s f id dir = some t) : Quiet s t := by
  simp only [newFuture] at ht
  split at ht
  · obtain rfl := Option.some.inj ht
    refine quiet_setFuture ⟨rfl, rfl, rfl, rfl, rfl, rfl, fun _ _ hx => hx⟩ rfl
      (fun g τ hτ => ?_) (.inl rfl)
    simp only [setFuture, Function.update_apply] at hτ ⊢
    split at hτ
    · cases hτ
    · rename_i hne
      rw [if_neg hne]
      exact ⟨rfl, rfl, .inl hτ⟩
  · cases ht

/-- A key that is found after a removal was found before. -/
theorem found_of_remove {key other : Nat} (h : (s.sources.remove fd).2.get key = some other) :
    s.sources.get key = some other := by
  rw [Colo.get_remove] at h
  split at h
  · cases h
  · exact h

theorem quiet_addPoller {ok : Bool} (ht : addPoller s id ok = some t) : Quiet s t := by
  simp only [addPoller] at ht
  repeat' split at ht
  · obtain rfl := Option.some.inj ht
    exact quiet_setStage ⟨rfl, rfl, rfl, rfl, rfl, rfl, fun _ _ hx => hx⟩ rfl rfl rfl rfl rfl
  · obtain rfl := Option.some.inj ht
    exact quiet_setStage ⟨rfl, rfl, rfl, rfl, rfl, rfl, fun _ _ hx => hx⟩ rfl rfl rfl rfl rfl
  · cases ht

theorem quiet_addUndo (ht : addUndo s id = some t) : Quiet s t := by
  simp only [addUndo] at ht
  split at ht
  · obtain rfl := Option.some.inj ht
    exact quiet_setStage ⟨rfl, rfl, rfl, rfl, rfl, rfl, fun _ _ => found_of_remove⟩
      rfl rfl rfl rfl rfl
  · cases ht

theorem quiet_removeIo (ht : removeIo s id = some t) : Quiet s t := by
  simp only [removeIo] at ht
  split at ht
  · obtain rfl := Option.some.inj ht
    exact quiet_setStage ⟨rfl, rfl, rfl, rfl, rfl, rfl, fun _ _ => found_of_remove⟩
      rfl rfl rfl rfl rfl
  · cases ht

theorem quiet_removePoller (ht : removePoller s = some t) : Quiet s t := by
  simp only [removePoller] at ht
  split at ht
  · obtain rfl := Option.some.inj ht
    exact quiet_setStage ⟨rfl, rfl, rfl, rfl, rfl, rfl, fun _ _ hx => hx⟩ rfl rfl rfl rfl rfl
  · cases ht

theorem quiet_modifyStep (ht : modifyStep s id = some t) : Quiet s t := by
  simp only [modifyStep] at ht
  split at ht
  · obtain rfl := Option.some.inj ht
    exact quiet_setStage ⟨rfl, rfl, rfl, rfl, rfl, rfl, fun _ _ hx => hx⟩ rfl rfl rfl rfl rfl
  · cases ht

/-! ## New sources, the poller and `react` -/

theorem stamped_addIo {raw : Nat} (hs : Slab s) (hh : Held s) (h : Stamped s)
    (ht : addIo s raw = some t) : Stamped t := by
  obtain ⟨sources, hins, -, -, -, hget⟩ := Colo.insert_spec hs.ok hs.unlimited s.created
  simp only [addIo, hins] at ht
  split at ht
  · obtain rfl := Option.some.inj ht
    refine { h with
      born := fun other => ?_
      pending := fun c hc other hsome => ?_
      sound := fun hlt other dir τ hrec => ?_ }
    · by_cases he : other = s.created
      · rw [he, setCell_self]
        exact le_rfl
      · rw [setCell_of_ne he]
        exact h.born other
    · by_cases he : other = s.created
      · rw [he, setCell_self]
        exact .inr rfl
      · rw [setCell_of_ne he]
        have hsome' : sources.get c.ev.key = some other := hsome
        rw [hget] at hsome'
        split at hsome'
        · exact absurd (Option.some.inj hsome').symm he
        · exact h.pending c hc other hsome'
    · have hne : other ≠ s.created := by
        rintro rfl
        rcases hrec with hcell | ⟨f, hsource, -, hτ⟩
        · rw [setCell_self] at hcell
          cases hcell
        · have hborn : (s.futures f).stage ≠ .unborn := fun hx => by
            have hτ' : (s.futures f).ticks = some τ := hτ
            rw [hh.fresh f hx] at hτ'
            cases hτ'
          exact Nat.lt_irrefl _ (hsource ▸ hh.made f hborn)
      have hold : Recorded s other dir τ := by
        rcases hrec with hcell | hfuture
        · rw [setCell_of_ne hne] at hcell
          exact .inl hcell
        · exact .inr hfuture
      refine (h.sound hlt other dir τ hold).mono ?_ ?_ le_rfl fun _ hd => hd <;>
        rw [setCell_of_ne hne]
  · cases ht

theorem stamped_collect {readable writable : Bool} (hs : Slab s) (h : Stamped s)
    (ht : collect s fd readable writable = some t) : Stamped t := by
  unfold collect at ht
  split at ht
  · split at ht
    · rename_i reg hreg
      split at ht
      · obtain rfl := Option.some.inj ht
        refine { h with
          pending := fun c hc id hget => ?_
          sound := fun hlt id dir τ hrec => { h.sound hlt id dir τ hrec with } }
        rcases List.mem_append.mp hc with hc | hc
        · exact h.pending c hc id hget
        · obtain rfl := List.mem_singleton.mp hc
          obtain ⟨-, hkey, hlive | hrem⟩ := hs.owner fd reg hreg
          · -- The registration is that of the source under the key.
            have hlisted := hs.listed reg.owner (by rw [hlive]; rfl)
            rw [← hkey] at hlisted
            exact .inl (Option.some.inj (hlisted.symm.trans hget))
          · have hvacated := (hs.vacated reg.owner hrem).2
            rw [← hkey] at hvacated
            cases hvacated.symm.trans hget
      · cases ht
    · cases ht
  · cases ht

theorem emit_ticks (src : Source) (tick : Nat) (ev : Event) (dir : Dir) :
    ((src.emit tick ev []).1.state dir).ticks = (src.state dir).ticks := by
  rw [Source.emit_state]
  split <;> rfl

theorem mem_deliveries {c : Collected} (hown : c.owner = id) (hev : c.ev.emitted dir = true) :
    ⟨id, dir, s.reacts⟩ ∈ deliveries s id c := by
  rw [deliveries, if_pos hown]
  refine List.mem_filterMap.mpr ⟨dir, ?_, if_pos hev⟩
  cases dir <;> simp

/-- An event is handled for the source under its key. -/
theorem stamped_emit {c : Collected} {rest : List Collected} (h : Stamped s)
    (hcells : t.cells = Function.update s.cells id { s.cells id with
      src := ((s.cells id).src.emit s.tick c.ev []).1, crit := .react })
    (hdelivered : t.delivered = deliveries s id c ++ s.delivered) (hticker : t.ticker = s.ticker)
    (hreacts : t.reacts = s.reacts) (htick : t.tick = s.tick) (hsources : t.sources = s.sources)
    (hfutures : t.futures = s.futures) (hanswers : t.answers = s.answers)
    (hrest : t.events = rest) (hpc : s.react = .loop) (hev : s.events = c :: rest)
    (hget : s.sources.get c.ev.key = some id) : Stamped t := by
  have hnow : s.tick = s.reacts % 2 ^ 64 :=
    h.tick (by rw [hpc]; exact ReactPc.noConfusion) (by rw [hpc]; exact ReactPc.noConfusion)
  have hsub : s.delivered ⊆ t.delivered := by
    rw [hdelivered]
    exact List.subset_append_right ..
  have hborn : ∀ other, (t.cells other).born = (s.cells other).born := by
    intro other
    rw [hcells]
    by_cases he : other = id
    · rw [he, Function.update_self]
    · rw [Function.update_of_ne he]
  have hticks : ∀ other dir, ((t.cells other).src.state dir).ticks =
      ((s.cells other).src.state dir).ticks := by
    intro other dir
    rw [hcells]
    by_cases he : other = id
    · rw [he, Function.update_self]
      exact emit_ticks ..
    · rw [Function.update_of_ne he]
  refine ⟨?_, fun _ _ => ?_, fun other => ?_, fun d hd other hsome => ?_,
    fun hlt other dir τ hrec => ?_, fun hlt r hr => ?_⟩
  · rw [hticker, hreacts]
    exact h.ticker
  · rw [htick, hreacts]
    exact hnow
  · rw [hborn, hreacts]
    exact h.born other
  · rw [hborn, hreacts]
    rw [hsources] at hsome
    rw [hrest] at hd
    exact h.pending d (by rw [hev]; exact List.mem_cons_of_mem _ hd) other hsome
  · rw [hreacts] at hlt
    have hold : Recorded s other dir τ := by
      rw [Recorded, hticks, hfutures] at hrec
      exact hrec
    have hsound := h.sound hlt other dir τ hold
    by_cases he : other = id ∧ c.ev.emitted dir = true
    · obtain ⟨rfl, hemit⟩ := he
      -- The direction is stamped now: with a tick that is recorded already, or a later one.
      have hstamp : ((t.cells other).src.state dir).tick = s.reacts := by
        rw [hcells, Function.update_self, Source.emit_state, if_pos hemit, ← Nat.mod_eq_of_lt hlt]
        exact hnow
      refine ⟨hsound.since, by rw [hreacts]; exact hsound.le, by rw [hborn]; exact hsound.born, ?_⟩
      rw [hstamp]
      rcases Nat.eq_or_lt_of_le hsound.le with heq | hlater
      · exact .inl (heq.symm.trans hsound.since.symm)
      · rcases h.pending c (by rw [hev]; exact List.mem_cons_self) other hget with hown | hnew
        · refine .inr (.inr ⟨hlater, ?_⟩)
          rw [hdelivered]
          exact List.mem_append_left _ (mem_deliveries hown hemit)
        · have hsince := hsound.born
          omega
    · refine hsound.mono (hborn other) ?_ hreacts.ge hsub
      rw [hcells]
      by_cases hid : other = id
      · rw [hid, Function.update_self, Source.emit_state, if_neg fun hx => he ⟨hid, hx⟩]
      · rw [Function.update_of_ne hid]
  · rw [hreacts] at hlt
    rw [hanswers] at hr
    obtain ⟨d, hd, hrest⟩ := h.answered hlt r hr
    exact ⟨d, hsub hd, hrest⟩

/-- `react` moves on, and takes or releases the lock of the slab. -/
theorem Stamped.goto {pc : ReactPc} {lock : SlabLock} (h : Stamped s)
    (hpc : pc ≠ .idle → pc ≠ .increment → s.react ≠ .idle ∧ s.react ≠ .increment) :
    Stamped { s with react := pc, lock := lock } :=
  { h with
    tick := fun hidle hinc => h.tick (hpc hidle hinc).1 (hpc hidle hinc).2
    sound := fun hlt id dir τ hrec => { h.sound hlt id dir τ hrec with } }

theorem stamped_increment (h : Stamped s) :
    Stamped { s with
      ticker := (s.ticker + 1) % 2 ^ 64, tick := (s.ticker + 1) % 2 ^ 64, reacts := s.reacts + 1
      events := [], react := .wait } := by
  have hticker := h.ticker
  have hnow : (s.ticker + 1) % 2 ^ 64 = (s.reacts + 1) % 2 ^ 64 := by omega
  exact {
    ticker := hnow
    tick := fun _ _ => hnow
    born := fun id => Nat.le_succ_of_le (h.born id)
    pending := fun c hc => absurd hc List.not_mem_nil
    sound := fun hlt id dir τ hrec => (h.sound (Nat.lt_of_succ_lt hlt) id dir τ hrec).mono rfl rfl
      (Nat.le_succ _) fun _ hd => hd
    answered := fun hlt => h.answered (Nat.lt_of_succ_lt hlt) }

theorem stamped_reactStep (h : Stamped s) (ht : reactStep s = some t) : Stamped t := by
  cases hpc : s.react with
  | idle =>
    simp only [reactStep, hpc] at ht
    obtain rfl := Option.some.inj ht
    exact h.goto fun _ hx => absurd rfl hx
  | increment =>
    simp only [reactStep, hpc] at ht
    obtain rfl := Option.some.inj ht
    exact stamped_increment h
  | wait =>
    simp only [reactStep, hpc] at ht
    obtain rfl := Option.some.inj ht
    exact h.goto fun _ _ => by simp [hpc]
  | lockSources =>
    simp only [reactStep, hpc] at ht
    split at ht
    · obtain rfl := Option.some.inj ht
      exact h.goto fun _ _ => by simp [hpc]
    · cases ht
  | loop =>
    simp only [reactStep, hpc] at ht
    split at ht
    · obtain rfl := Option.some.inj ht
      exact h.goto fun hx => absurd rfl hx
    · rename_i c rest hev
      split at ht
      · obtain rfl := Option.some.inj ht
        exact { h with
          tick := by rw [← hpc]; exact h.tick
          pending := fun d hd => h.pending d (by rw [hev]; exact List.mem_cons_of_mem _ hd)
          sound := fun hlt id dir τ hrec => { h.sound hlt id dir τ hrec with } }
      · rename_i id hget
        split at ht
        · obtain rfl := Option.some.inj ht
          exact stamped_emit h rfl rfl rfl rfl rfl rfl rfl rfl rfl hpc hev hget
        · cases ht
  | modify id =>
    simp only [reactStep, hpc] at ht
    obtain rfl := Option.some.inj ht
    have hloop : Stamped { s with react := .loop } := h.goto fun _ _ => by simp [hpc]
    exact hloop.quiet (quiet_setStage ⟨rfl, rfl, rfl, rfl, rfl, rfl, fun _ _ hx => hx⟩
      rfl rfl rfl rfl rfl)

theorem stamped_step {a : Act} (hs : Slab s) (hh : Held s) (h : Stamped s)
    (ht : step s a = some t) : Stamped t := by
  cases a with
  | addIo raw => exact stamped_addIo hs hh h ht
  | addPoller id ok => exact h.quiet (quiet_addPoller ht)
  | addUndo id => exact h.quiet (quiet_addUndo ht)
  | removeIo id => exact h.quiet (quiet_removeIo ht)
  | removePoller => exact h.quiet (quiet_removePoller ht)
  | pollReady id dir cx => exact h.quiet (quiet_pollReady ht)
  | newFuture f id dir => exact h.quiet (quiet_newFuture ht)
  | pollFuture f cx => exact h.quiet (quiet_pollFuture ht)
  | dropFuture f => exact h.quiet (quiet_dropFuture ht)
  | ticks id => exact h.quiet (quiet_ticksStep hh ht)
  | modify id => exact h.quiet (quiet_modifyStep ht)
  | collect fd readable writable => exact stamped_collect hs h ht
  | react => exact stamped_reactStep h ht

theorem stamped_of_reachable (hs : system.Reachable s) : Slab s ∧ Held s ∧ Stamped s :=
  hs.invariant (M := system) (I := fun s => Slab s ∧ Held s ∧ Stamped s)
    ⟨slab_new, held_new, stamped_new⟩
    fun _ _ _ h ht => ⟨slab_step h.1 ht, held_step h.1 h.2.1 ht, stamped_step h.1 h.2.1 h.2.2 ht⟩

/-- Until the ticker comes round, a poll is answered ready only for an event that was
delivered to its source and in its direction after it had registered. -/
theorem ready_not_stale (hs : system.Reachable s) (hlt : s.reacts < 2 ^ 64) :
    (∀ r ∈ s.answers, ∃ d ∈ s.delivered,
      d.source = r.source ∧ d.dir = r.dir ∧ r.reacts < d.reacts) ∧
    ∀ id dir τ, Recorded s id dir τ → τ.passed ((s.cells id).src.state dir).tick = true →
      τ.since < ((s.cells id).src.state dir).tick ∧
        ⟨id, dir, ((s.cells id).src.state dir).tick⟩ ∈ s.delivered := by
  obtain ⟨-, -, h⟩ := stamped_of_reachable hs
  exact ⟨h.answered hlt, fun id dir τ hrec => (h.sound hlt id dir τ hrec).passed⟩

/-- An event is collected for a source whose key a second source then takes. It is
handled for the second one, whose reader has to wait for an event of its own. -/
def keyReused : List Act :=
  [.addIo 3, .addPoller 0 true, .pollReady 0 .read 7, .ticks 0, .modify 0, .react, .react,
   .collect 3 true false, .removeIo 0, .removePoller, .addIo 3, .addPoller 1 true,
   .pollReady 1 .read 8, .ticks 1, .modify 1, .react, .react, .react, .react, .react,
   .pollReady 1 .read 9, .ticks 1, .modify 1, .react, .react, .collect 3 true false, .react,
   .react, .react, .react, .react, .pollReady 1 .read 9]

theorem ready_not_stale_keyReused : ∃ s, system.Reachable s ∧ s.reacts = 2 ∧
    s.answers = [⟨1, .read, 1⟩] ∧ s.delivered = [⟨1, .read, 2⟩] ∧
    ∃ d ∈ s.delivered, d.source = 1 ∧ d.dir = .read ∧ 1 < d.reacts := by
  obtain ⟨s, -, hs, hreacts, hans, hdel⟩ := system.exists_of_run
    (P := fun s => s.reacts = 2 ∧ s.answers = [⟨1, .read, 1⟩] ∧ s.delivered = [⟨1, .read, 2⟩])
    keyReused (by decide +kernel)
  refine ⟨s, hs, hreacts, hans, hdel, ?_⟩
  exact (ready_not_stale hs (by rw [hreacts]; decide)).1 ⟨1, .read, 1⟩
    (by rw [hans]; exact List.mem_singleton_self _)

end Cynthia.Io.Reactor
