import Cynthia.Io.ReactorInv

/-! Interest in a source is always armed: a direction with a stored waker is in the
poller's registration, or an event of the source is collected and not handled yet.
Only the first waker of a direction asks the poller, and an event for the other
direction disarms both. -/

namespace Cynthia.Io.Reactor

open Transition Utils

variable {s t : State} {id f fd : Nat} {dir : Dir} {cx : Waker} {cell : Cell}

/-- The registration of the source is enabled and asks for the direction. -/
def Armed (s : State) (id : Nat) (dir : Dir) : Prop :=
  ∃ reg, s.poller (s.cells id).src.raw = some reg ∧ reg.enabled = true ∧
    reg.event.emitted dir = true

/-- An event of the source is collected and not handled yet. -/
def Awaited (s : State) (id : Nat) : Prop := ∃ c ∈ s.events, c.owner = id

instance (s : State) (id : Nat) (dir : Dir) : Decidable (Armed s id dir) :=
  decidable_of_iff (((s.poller (s.cells id).src.raw).any fun reg =>
    reg.enabled && reg.event.emitted dir) = true) (by simp [Armed, Option.any_eq_true])

instance (s : State) (id : Nat) : Decidable (Awaited s id) :=
  inferInstanceAs (Decidable (∃ c ∈ s.events, c.owner = id))

/-- The holder of the lock, if there is one, is not going to call `poller.modify`. -/
def Crit.settled : Crit → Bool
  | .free | .pollTicks _ false | .futureTicks _ _ _ false _ => true
  | _ => false

/-- The events in hand, and what each stored waker can rely on. A future that found
its direction in use has not stored its own waker yet. -/
structure Watched (s : State) : Prop where
  owned : ∀ c ∈ s.events, c.owner < s.created ∧ c.ev.key = (s.cells c.owner).src.key
  drained : s.react = .idle ∨ s.react = .increment → s.events = []
  kept : ∀ id dir f i cx, (s.cells id).crit = .futureTicks dir f i false cx →
    ((s.cells id).src.state dir).isEmpty = false
  armed : ∀ id, (s.cells id).stage = .live → (s.cells id).crit.settled = true →
    ∀ dir, ((s.cells id).src.state dir).isEmpty = false → Armed s id dir ∨ Awaited s id

theorem watched_new : Watched new := by
  constructor <;> simp [new]

/-- A source moves under its lock, and what it then has stored is armed or awaited. -/
theorem Watched.setCell (h : Watched s) (hraw : cell.src.raw = (s.cells id).src.raw)
    (hkey : cell.src.key = (s.cells id).src.key)
    (hkept : ∀ dir f i cx, cell.crit = .futureTicks dir f i false cx →
      (cell.src.state dir).isEmpty = false)
    (harmed : cell.stage = .live → cell.crit.settled = true →
      ∀ dir, (cell.src.state dir).isEmpty = false → Armed s id dir ∨ Awaited s id) :
    Watched (setCell s id cell) := by
  have hold : ∀ other, ((Reactor.setCell s id cell).cells other).src.raw = (s.cells other).src.raw ∧
      ((Reactor.setCell s id cell).cells other).src.key = (s.cells other).src.key := by
    intro other
    by_cases he : other = id
    · subst he
      rw [setCell_self]
      exact ⟨hraw, hkey⟩
    · rw [setCell_of_ne he]
      exact ⟨rfl, rfl⟩
  have harm : ∀ other dir, Armed s other dir → Armed (Reactor.setCell s id cell) other dir := by
    rintro other dir ⟨reg, hreg, hen, hemit⟩
    exact ⟨reg, by rw [(hold other).1]; exact hreg, hen, hemit⟩
  refine ⟨fun c hc => ?_, h.drained, fun other => ?_, fun other => ?_⟩
  · rw [(hold _).2]
    exact h.owned c hc
  · by_cases he : other = id
    · subst he
      rw [setCell_self]
      exact hkept
    · rw [setCell_of_ne he]
      exact h.kept other
  · by_cases he : other = id
    · subst he
      rw [setCell_self]
      intro hlive hset dir hne
      exact (harmed hlive hset dir hne).imp_left (harm other dir)
    · rw [setCell_of_ne he]
      intro hlive hset dir hne
      exact (h.armed other hlive hset dir hne).imp_left (harm other dir)

/-- A step of a call that changes one direction of a source and leaves it to the
poller as it is, or is going to ask the poller. -/
theorem Watched.setDir (h : Watched s) (dir : Dir) (p : Private) (crit : Crit)
    (hset : crit.settled = true → (s.cells id).crit.settled = true)
    (hkept : ∀ other f i cx, crit = .futureTicks other f i false cx →
      other = dir ∧ p.isEmpty = false)
    (hne : crit.settled = true → p.isEmpty = false →
      ((s.cells id).src.state dir).isEmpty = false) :
    Watched (Reactor.setCell s id
      { s.cells id with src := (s.cells id).src.setDir dir p, crit := crit }) := by
  refine h.setCell rfl rfl (fun other f i cx hcrit => ?_) (fun hlive hset' other hother => ?_)
  · obtain ⟨rfl, hp⟩ := hkept other f i cx hcrit
    rw [Source.setDir_self]
    exact hp
  · by_cases he : other = dir
    · subst he
      rw [Source.setDir_self] at hother
      exact h.armed id hlive (hset hset') other (hne hset' hother)
    · rw [Source.setDir_of_ne he] at hother
      exact h.armed id hlive (hset hset') other hother

/-- A descriptor has one registration, so it has one live source. -/
theorem Slab.raw_inj (h : Slab s) {other : Nat}
    (hid : (s.cells id).stage = .live ∨ (s.cells id).stage = .removing)
    (hother : (s.cells other).stage = .live ∨ (s.cells other).stage = .removing)
    (hraw : (s.cells other).src.raw = (s.cells id).src.raw) : other = id := by
  obtain ⟨reg, hreg, hown⟩ := h.registered id hid
  obtain ⟨reg', hreg', hown'⟩ := h.registered other hother
  rw [hraw, hreg] at hreg'
  obtain rfl := Option.some.inj hreg'
  exact hown'.symm.trans hown

/-! ## Step by step -/

theorem watched_addIo {raw : Nat} (hs : Slab s) (h : Watched s) (ht : addIo s raw = some t) :
    Watched t := by
  obtain ⟨sources, hins, -⟩ := Colo.insert_spec hs.ok hs.unlimited s.created
  simp only [addIo, hins] at ht
  split at ht
  · obtain rfl := Option.some.inj ht
    refine ⟨fun c hc => ?_, h.drained, fun other => ?_, fun other => ?_⟩
    · obtain ⟨hlt, hkey⟩ := h.owned c hc
      refine ⟨Nat.lt_succ_of_lt hlt, ?_⟩
      rw [setCell_of_ne (Nat.ne_of_lt hlt)]
      exact hkey
    · by_cases he : other = s.created
      · subst he
        rw [setCell_self]
        exact fun _ _ _ _ hcrit => Crit.noConfusion hcrit
      · rw [setCell_of_ne he]
        exact h.kept other
    · by_cases he : other = s.created
      · subst he
        rw [setCell_self]
        exact fun hlive => Stage.noConfusion hlive
      · rw [setCell_of_ne he]
        intro hlive hset dir hne
        rcases h.armed other hlive hset dir hne with ⟨reg, hreg, hrest⟩ | hawait
        · refine .inl ⟨reg, ?_, hrest⟩
          rw [setCell_of_ne he]
          exact hreg
        · exact .inr hawait
  · cases ht

/-- The poller changes the registration of one descriptor, and no live source that
is armed by it is left out. -/
theorem Watched.setPoller (h : Watched s) {reg : Option Registration}
    (hraw : ∀ id, (s.cells id).stage = .live → (s.cells id).crit.settled = true →
      (s.cells id).src.raw = fd → ∀ dir, ((s.cells id).src.state dir).isEmpty = false →
        (∃ r, reg = some r ∧ r.enabled = true ∧ r.event.emitted dir = true) ∨ Awaited s id) :
    Watched { s with poller := Function.update s.poller fd reg } := by
  refine { h with armed := fun id hlive hset dir hne => ?_ }
  by_cases he : (s.cells id).src.raw = fd
  · refine (hraw id hlive hset he dir hne).imp_left fun ⟨r, hr, hen, hemit⟩ => ⟨r, ?_, hen, hemit⟩
    show Function.update s.poller fd reg (s.cells id).src.raw = some r
    rw [he, Function.update_self]
    exact hr
  · refine (h.armed id hlive hset dir hne).imp_left fun ⟨r, hr, hen, hemit⟩ => ⟨r, ?_, hen, hemit⟩
    exact (Function.update_of_ne he ..).trans hr

theorem watched_addPoller {ok : Bool} (hs : Slab s) (h : Watched s)
    (ht : addPoller s id ok = some t) : Watched t := by
  simp only [addPoller] at ht
  split at ht
  · rename_i hadding
    -- Nobody has used the source before `add_io` returns it.
    have hempty := hs.untouched id (.inl hadding)
    have hkept : ∀ dir f i cx, (s.cells id).crit = .futureTicks dir f i false cx →
        ((s.cells id).src.state dir).isEmpty = false := h.kept id
    split at ht
    · rename_i hadd
      obtain ⟨-, hnone⟩ := hadd
      obtain rfl := Option.some.inj ht
      have hreg : Watched { s with
          poller := Function.update s.poller (s.cells id).src.raw
            (some ⟨.none (s.cells id).src.key, true, id⟩) } := by
        refine h.setPoller fun other hlive _ hraw => ?_
        obtain ⟨reg, hsome, -⟩ := hs.registered other (.inl hlive)
        rw [hraw, hnone] at hsome
        cases hsome
      refine hreg.setCell rfl rfl hkept fun _ _ dir hne => ?_
      exact Bool.noConfusion (hne.symm.trans (hempty dir))
    · obtain rfl := Option.some.inj ht
      exact h.setCell rfl rfl hkept fun hlive => Stage.noConfusion hlive
  · cases ht

theorem watched_addUndo (h : Watched s) (ht : addUndo s id = some t) : Watched t := by
  simp only [addUndo] at ht
  split at ht
  · obtain rfl := Option.some.inj ht
    have hsame : Watched { s with sources := (s.sources.remove (s.cells id).src.key).2 } :=
      { h with }
    exact hsame.setCell rfl rfl (h.kept id) fun hlive => Stage.noConfusion hlive
  · cases ht

theorem watched_removeIo (h : Watched s) (ht : removeIo s id = some t) : Watched t := by
  simp only [removeIo] at ht
  split at ht
  · obtain rfl := Option.some.inj ht
    have hsame : Watched { s with
      sources := (s.sources.remove (s.cells id).src.key).2, lock := .removing id } := { h with }
    exact hsame.setCell rfl rfl (h.kept id) fun hlive => Stage.noConfusion hlive
  · cases ht

theorem watched_removePoller (hs : Slab s) (h : Watched s) (ht : removePoller s = some t) :
    Watched t := by
  unfold removePoller at ht
  split at ht
  · rename_i id hlock
    obtain rfl := Option.some.inj ht
    have hrem := hs.removing id hlock
    have hreg : Watched { s with poller := Function.update s.poller (s.cells id).src.raw none } := by
      refine h.setPoller fun other hlive _ hraw => ?_
      obtain rfl := hs.raw_inj (.inr hrem) (.inl hlive) hraw
      rw [hlive] at hrem
      cases hrem
    have hfree : Watched { s with
        poller := Function.update s.poller (s.cells id).src.raw none, lock := .free } :=
      { hreg with }
    exact hfree.setCell rfl rfl (h.kept id) fun hlive => Stage.noConfusion hlive
  · cases ht

theorem watched_pollReady (h : Watched s) (ht : pollReady s id dir cx = some t) : Watched t := by
  simp only [pollReady] at ht
  split at ht
  · rename_i hcond
    obtain ⟨hlive, hfree⟩ := hcond
    split at ht
    · obtain rfl := Option.some.inj ht
      refine { h.setDir dir { (s.cells id).src.state dir with ticks := none } (s.cells id).crit
        (fun hset => hset) (fun _ _ _ _ hcrit => ?_) fun _ hne => hne with }
      rw [hfree] at hcrit
      cases hcrit
    · split at ht
      · obtain rfl := Option.some.inj ht
        exact h
      · obtain rfl := Option.some.inj ht
        refine h.setDir dir _ _ (fun _ => by rw [hfree]; rfl)
          (fun _ _ _ _ hcrit => Crit.noConfusion hcrit) fun hset' _ => ?_
        cases hempty : ((s.cells id).src.state dir).isEmpty with
        | false => rfl
        | true =>
          rw [hempty] at hset'
          cases hset'
  · cases ht

theorem watched_pollFuture (h : Watched s) (ht : pollFuture s f cx = some t) : Watched t := by
  simp only [pollFuture] at ht
  split at ht
  · rename_i hcond
    obtain ⟨-, hlive, hfree⟩ := hcond
    split at ht
    · obtain rfl := Option.some.inj ht
      exact { h with }
    · split at ht
      · obtain rfl := Option.some.inj ht
        refine h.setDir (s.futures f).dir _ _ (fun _ => by rw [hfree]; rfl)
          (fun _ _ _ _ hcrit => ?_) fun hset' _ => ?_
        · split at hcrit <;> cases hcrit
        · cases hempty : ((s.cells (s.futures f).source).src.state (s.futures f).dir).isEmpty with
          | false => rfl
          | true =>
            rw [if_pos hempty] at hset'
            cases hset'
      · split at ht
        · rename_i i wakers hins
          obtain rfl := Option.some.inj ht
          have hsame := Private.isEmpty_insert hins
          refine { h.setDir (s.futures f).dir _ _ (fun _ => by rw [hfree]; rfl)
          (fun _ _ _ _ hcrit => ?_)
            fun _ hne => ?_ with }
          · obtain ⟨rfl, rfl, rfl, hempty, rfl⟩ := Crit.futureTicks.inj hcrit
            exact ⟨rfl, hsame.trans hempty⟩
          · exact hsame.symm.trans hne
        · cases ht
  · cases ht

theorem watched_dropFuture (h : Watched s) (ht : dropFuture s f = some t) : Watched t := by
  simp only [dropFuture] at ht
  split at ht
  · split at ht
    · obtain rfl := Option.some.inj ht
      exact { h with }
    · rename_i i _
      split at ht
      · rename_i hfree
        obtain rfl := Option.some.inj ht
        refine { h.setDir (s.futures f).dir _ (s.cells (s.futures f).source).crit
          (fun hset => hset) (fun _ _ _ _ hcrit => ?_) fun _ hne => ?_ with }
        · rw [hfree] at hcrit
          cases hcrit
        · by_contra hempty
          rw [Private.isEmpty_remove (Bool.not_eq_false _ ▸ hempty) i] at hne
          cases hne
      · cases ht
  · cases ht

theorem watched_ticksStep (h : Watched s) (ht : ticksStep s id = some t) : Watched t := by
  simp only [ticksStep] at ht
  split at ht
  · rename_i dir wasEmpty hcrit
    obtain rfl := Option.some.inj ht
    refine h.setDir dir _ _ (fun hset => ?_) (fun _ _ _ _ hx => ?_) fun _ hne => hne
    · cases wasEmpty with
      | false =>
        rw [hcrit]
        rfl
      | true => cases hset
    · split at hx <;> cases hx
  · rename_i dir f i wasEmpty cx hcrit
    obtain rfl := Option.some.inj ht
    refine { h.setDir dir _ _ (fun hset => ?_) (fun _ _ _ _ hx => ?_) fun hset _ => ?_ with }
    · cases wasEmpty with
      | false =>
        rw [hcrit]
        rfl
      | true => cases hset
    · split at hx <;> cases hx
    · cases wasEmpty with
      | false => exact h.kept id dir f i cx hcrit
      | true => cases hset
  · cases ht

/-- `poller.modify` asks for every direction with a waker. -/
theorem Watched.modify (h : Watched s) (hs : Slab s) (hlive : (s.cells id).stage = .live) :
    Watched (Reactor.setCell { s with
      poller := modifyPoller s.poller (s.cells id).src.raw (s.cells id).src.interest } id
      { s.cells id with crit := .free }) := by
  obtain ⟨reg, hsome, -⟩ := hs.registered id (.inl hlive)
  have hemit : ∀ dir, ((s.cells id).src.state dir).isEmpty = false →
      (s.cells id).src.interest.emitted dir = true := by
    intro dir hne
    rw [Source.interest_emitted, hne]
    rfl
  rw [modifyPoller_eq _ hsome]
  have hreg : Watched { s with
      poller := Function.update s.poller (s.cells id).src.raw
        (some { reg with event := (s.cells id).src.interest, enabled := true }) } := by
    refine h.setPoller fun other hother _ hraw dir hne => ?_
    obtain rfl := hs.raw_inj (.inl hlive) (.inl hother) hraw
    exact .inl ⟨_, rfl, rfl, hemit dir hne⟩
  refine hreg.setCell rfl rfl (fun _ _ _ _ hx => Crit.noConfusion hx) fun _ _ dir hne => ?_
  exact .inl ⟨_, Function.update_self .., rfl, hemit dir hne⟩

theorem watched_modifyStep (hs : Slab s) (h : Watched s) (ht : modifyStep s id = some t) :
    Watched t := by
  simp only [modifyStep] at ht
  split at ht
  · rename_i hcrit
    obtain rfl := Option.some.inj ht
    exact h.modify hs (hs.used id (by rw [hcrit]; exact Crit.noConfusion)
      (by rw [hcrit]; exact Crit.noConfusion))
  · cases ht

theorem watched_collect {readable writable : Bool} (hs : Slab s) (h : Watched s)
    (ht : collect s fd readable writable = some t) : Watched t := by
  unfold collect at ht
  split at ht
  · rename_i hpc
    split at ht
    · rename_i reg hreg
      split at ht
      · obtain rfl := Option.some.inj ht
        obtain ⟨hraw, hkey, hstage⟩ := hs.owner fd reg hreg
        refine { h with
          owned := fun c hc => ?_
          drained := fun hx => ?_
          armed := fun id hlive hset dir hne => ?_ }
        · rcases List.mem_append.mp hc with hc | hc
          · exact h.owned c hc
          · obtain rfl := List.mem_singleton.mp hc
            refine ⟨Nat.lt_of_not_le fun hle => ?_, hkey⟩
            rw [hs.unborn _ hle] at hstage
            simp at hstage
        · rcases hx with hx | hx <;> cases hpc.symm.trans hx
        · by_cases he : (s.cells id).src.raw = fd
          · -- The event that disarms the source is its own.
            have hown : reg.owner = id :=
              hs.raw_inj (.inl hlive) hstage (hraw.trans he.symm)
            exact .inr ⟨_, List.mem_append_right _ (List.mem_singleton_self _), hown⟩
          · rcases h.armed id hlive hset dir hne with ⟨r, hr, hrest⟩ | ⟨c, hc, hown⟩
            · exact .inl ⟨r, (Function.update_of_ne he ..).trans hr, hrest⟩
            · exact .inr ⟨c, List.mem_append_left _ hc, hown⟩
      · cases ht
    · cases ht
  · cases ht

/-- The event at the head of the list leaves it. -/
theorem Awaited.tail {c : Collected} {rest : List Collected} (h : Awaited s id)
    (hev : s.events = c :: rest) (hne : c.owner ≠ id) : ∃ c ∈ rest, c.owner = id := by
  obtain ⟨d, hd, hown⟩ := h
  rw [hev] at hd
  rcases List.mem_cons.mp hd with rfl | hd
  · exact absurd hown hne
  · exact ⟨d, hd, hown⟩

theorem watched_loop (hs : Slab s) (h : Watched s) (hpc : s.react = .loop)
    (ht : reactStep s = some t) : Watched t := by
  simp only [reactStep, hpc] at ht
  split at ht
  · rename_i hev
    obtain rfl := Option.some.inj ht
    exact { h with drained := fun _ => hev }
  · rename_i c rest hev
    have hin : ∀ d ∈ rest, d ∈ s.events := fun d hd => by rw [hev]; exact List.mem_cons_of_mem _ hd
    have howned := h.owned c (by rw [hev]; exact List.mem_cons_self)
    -- An event of a live source is found under its key.
    have hfound : (s.cells c.owner).stage = .live → s.sources.get c.ev.key = some c.owner := by
      intro hlive
      rw [howned.2]
      exact hs.listed _ (by rw [hlive]; rfl)
    split at ht
    · rename_i hget
      obtain rfl := Option.some.inj ht
      refine { h with
        owned := fun d hd => h.owned d (hin d hd)
        drained := fun hx => ?_
        armed := fun id hlive hset dir hne => ?_ }
      · rcases hx with hx | hx <;> cases hx
      · refine (h.armed id hlive hset dir hne).imp_right fun ha => ha.tail hev ?_
        rintro rfl
        rw [hget] at hfound
        cases hfound hlive
    · rename_i id hget
      split at ht
      · obtain rfl := Option.some.inj ht
        have hset : Watched (Reactor.setCell s id { s.cells id with
            src := ((s.cells id).src.emit s.tick c.ev []).1, crit := .react }) :=
          h.setCell Source.emit_frame.1 Source.emit_frame.2
            (fun _ _ _ _ hx => Crit.noConfusion hx) fun _ hx => Bool.noConfusion hx
        refine { hset with
          owned := fun d hd => hset.owned d (hin d hd)
          drained := fun hx => ?_
          armed := fun other hlive hother dir hne => ?_ }
        · rcases hx with hx | hx <;> cases hx
        · refine (hset.armed other hlive hother dir hne).imp_right fun ha => ha.tail hev ?_
          rintro rfl
          by_cases he : c.owner = id
          · rw [← he, setCell_self] at hother
            cases hother
          · rw [setCell_of_ne he] at hlive
            exact he (Option.some.inj ((hfound hlive).symm.trans hget))
      · cases ht

theorem watched_reactStep (hs : Slab s) (h : Watched s) (ht : reactStep s = some t) :
    Watched t := by
  cases hpc : s.react with
  | idle =>
    simp only [reactStep, hpc] at ht
    obtain rfl := Option.some.inj ht
    exact { h with drained := fun _ => h.drained (.inl hpc) }
  | increment =>
    simp only [reactStep, hpc] at ht
    obtain rfl := Option.some.inj ht
    have hev := h.drained (.inr hpc)
    refine { h with
      owned := fun c hc => absurd hc List.not_mem_nil
      drained := fun _ => rfl
      armed := fun id hlive hset dir hne => ?_ }
    refine (h.armed id hlive hset dir hne).imp_right fun ⟨c, hc, hown⟩ => ?_
    rw [hev] at hc
    cases hc
  | wait =>
    simp only [reactStep, hpc] at ht
    obtain rfl := Option.some.inj ht
    refine { h with drained := fun hx => ?_ }
    by_contra hne
    rw [if_neg hne] at hx
    rcases hx with hx | hx <;> cases hx
  | lockSources =>
    simp only [reactStep, hpc] at ht
    split at ht
    · obtain rfl := Option.some.inj ht
      refine { h with drained := fun hx => ?_ }
      rcases hx with hx | hx <;> cases hx
    · cases ht
  | loop => exact watched_loop hs h hpc ht
  | modify id =>
    simp only [reactStep, hpc] at ht
    obtain rfl := Option.some.inj ht
    have hidle : Watched { s with react := .loop } := { h with
      drained := fun hx => by rcases hx with hx | hx <;> cases hx }
    by_cases hwait : (s.cells id).src.waiting = true
    · rw [if_pos hwait]
      have hloop : Slab { s with react := .loop } := hs.loop hpc
      exact hidle.modify hloop (hs.waiting_live hpc hwait)
    · rw [if_neg hwait]
      refine hidle.setCell rfl rfl (fun _ _ _ _ hx => Crit.noConfusion hx) fun _ _ dir hne => ?_
      exact absurd (Source.waiting_iff.mpr ⟨dir, hne⟩) hwait

theorem watched_step {a : Act} (hs : Slab s) (h : Watched s) (ht : step s a = some t) :
    Watched t := by
  cases a with
  | addIo raw => exact watched_addIo hs h ht
  | addPoller id ok => exact watched_addPoller hs h ht
  | addUndo id => exact watched_addUndo h ht
  | removeIo id => exact watched_removeIo h ht
  | removePoller => exact watched_removePoller hs h ht
  | pollReady id dir cx => exact watched_pollReady h ht
  | newFuture f id dir =>
    simp only [step, newFuture] at ht
    split at ht
    · obtain rfl := Option.some.inj ht
      exact { h with }
    · cases ht
  | pollFuture f cx => exact watched_pollFuture h ht
  | dropFuture f => exact watched_dropFuture h ht
  | ticks id => exact watched_ticksStep h ht
  | modify id => exact watched_modifyStep hs h ht
  | collect fd readable writable => exact watched_collect hs h ht
  | react => exact watched_reactStep hs h ht

theorem watched_of_reachable (hs : system.Reachable s) : Slab s ∧ Watched s :=
  hs.invariant (M := system) (I := fun s => Slab s ∧ Watched s) ⟨slab_new, watched_new⟩
    fun _ _ _ h ht => ⟨slab_step h.1 ht, watched_step h.1 h.2 ht⟩

/-- A live source that nobody is at work on and that has a waker in one direction is armed
for it in the poller, or an event for it is collected and still to be handled. -/
theorem interest_armed (hs : system.Reachable s) (hlive : (s.cells id).stage = .live)
    (hfree : (s.cells id).crit = .free) (hne : ((s.cells id).src.state dir).isEmpty = false) :
    Armed s id dir ∨ Awaited s id :=
  (watched_of_reachable hs).2.armed id hlive (by rw [hfree]; rfl) dir hne

/-- A reader and a future that waits to write, and an event for the writer alone:
`react` arms the reader again. -/
def rearmed : List Act :=
  [.addIo 3, .addPoller 0 true, .pollReady 0 .read 7, .ticks 0, .modify 0, .newFuture 0 0 .write,
   .pollFuture 0 8, .ticks 0, .modify 0, .react, .react, .collect 3 false true, .react, .react,
   .react, .react]

theorem interest_armed_rearmed : ∃ s, system.Reachable s ∧ s.events = [] ∧
    ((s.cells 0).src.state .write).isEmpty = true ∧
    ((s.cells 0).src.state .read).isEmpty = false ∧ (Armed s 0 .read ∨ Awaited s 0) := by
  obtain ⟨s, -, hs, hev, hw, hr, hlive, hfree⟩ := system.exists_of_run
    (P := fun s => s.events = [] ∧ ((s.cells 0).src.state .write).isEmpty = true ∧
      ((s.cells 0).src.state .read).isEmpty = false ∧ (s.cells 0).stage = .live ∧
      (s.cells 0).crit = .free) rearmed (by decide +kernel)
  exact ⟨s, hs, hev, hw, hr, interest_armed hs hlive hfree hr⟩

end Cynthia.Io.Reactor
