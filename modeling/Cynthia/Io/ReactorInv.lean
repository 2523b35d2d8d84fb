import Cynthia.Io.Reactor

/-! What holds between the slab, the sources, the registrations in the poller and
the events that `react` has collected, and from it: interest is always armed. -/

namespace Cynthia.Io.Reactor

open Transition Utils

variable {s t : State} {id f fd : Nat} {dir : Dir} {cx : Waker} {cell : Cell}

/-- The slab holds the sources between `add_io` and `remove_io`, each under its own
key, and every registration belongs to one of them or to one that `remove_io` is
just taking out. -/
structure Slab (s : State) : Prop where
  ok : s.sources.Ok
  unlimited : s.sources.limited = 0
  unborn : ∀ id, s.created ≤ id → (s.cells id).stage = .unborn
  occupied : ∀ key id, s.sources.get key = some id →
    (s.cells id).src.key = key ∧ (s.cells id).stage.inSlab = true
  listed : ∀ id, (s.cells id).stage.inSlab = true →
    s.sources.get (s.cells id).src.key = some id
  vacated : ∀ id, (s.cells id).stage = .removing →
    s.lock = .removing id ∧ s.sources.get (s.cells id).src.key = none
  removing : ∀ id, s.lock = .removing id → (s.cells id).stage = .removing
  registered : ∀ id, (s.cells id).stage = .live ∨ (s.cells id).stage = .removing →
    ∃ reg, s.poller (s.cells id).src.raw = some reg ∧ reg.owner = id
  owner : ∀ fd reg, s.poller fd = some reg → (s.cells reg.owner).src.raw = fd ∧
    reg.event.key = (s.cells reg.owner).src.key ∧
    ((s.cells reg.owner).stage = .live ∨ (s.cells reg.owner).stage = .removing)
  looping : s.react.inLoop = true → s.lock = .react
  handling : ∀ id, s.react = .modify id →
    (s.cells id).crit = .react ∧ (s.cells id).stage.inSlab = true
  used : ∀ id, (s.cells id).crit ≠ .free → (s.cells id).crit ≠ .react →
    (s.cells id).stage = .live
  untouched : ∀ id, (s.cells id).stage = .adding ∨ (s.cells id).stage = .failed →
    ∀ dir, ((s.cells id).src.state dir).isEmpty = true

theorem slab_new : Slab new := by
  constructor <;> simp [new, Stage.inSlab, ReactPc.inLoop, Colo.ok_new]
  · rfl
  · intro key id h
    simp [Colo.get, Colo.new] at h

theorem setCell_self : (setCell s id cell).cells id = cell := Function.update_self ..

theorem setCell_of_ne {other : Nat} (h : other ≠ id) :
    (setCell s id cell).cells other = s.cells other := Function.update_of_ne h ..

/-- A source moves under its lock, in the slab as before. -/
theorem Slab.setCell (h : Slab s) (hraw : cell.src.raw = (s.cells id).src.raw)
    (hkey : cell.src.key = (s.cells id).src.key) (hstage : cell.stage = (s.cells id).stage)
    (hhandling : s.react = .modify id → cell.crit = .react)
    (hused : cell.crit ≠ .free → cell.crit ≠ .react → cell.stage = .live)
    (hempty : cell.stage = .adding ∨ cell.stage = .failed →
      ∀ dir, (cell.src.state dir).isEmpty = true) : Slab (setCell s id cell) := by
  obtain ⟨hok, hunlim, hunborn, hocc, hlisted, hvac, hrem, hreg, howner, hloop, hhand, husd,
    hunt⟩ := h
  have hcell : ∀ other, ((Reactor.setCell s id cell).cells other).src.raw = (s.cells other).src.raw ∧
      ((Reactor.setCell s id cell).cells other).src.key = (s.cells other).src.key ∧
      ((Reactor.setCell s id cell).cells other).stage = (s.cells other).stage := by
    intro other
    by_cases he : other = id
    · subst he
      rw [setCell_self]
      exact ⟨hraw, hkey, hstage⟩
    · rw [setCell_of_ne he]
      exact ⟨rfl, rfl, rfl⟩
  refine ⟨hok, hunlim, ?_, ?_, ?_, ?_, ?_, ?_, ?_, hloop, ?_, ?_, ?_⟩
  · intro other hle
    rw [(hcell other).2.2]
    exact hunborn other hle
  · intro key other hget
    rw [(hcell other).2.1, (hcell other).2.2]
    exact hocc key other hget
  · intro other hin
    rw [(hcell other).2.2] at hin
    rw [(hcell other).2.1]
    exact hlisted other hin
  · intro other hst
    rw [(hcell other).2.2] at hst
    rw [(hcell other).2.1]
    exact hvac other hst
  · intro other hlock
    rw [(hcell other).2.2]
    exact hrem other hlock
  · intro other hst
    rw [(hcell other).2.2] at hst
    rw [(hcell other).1]
    exact hreg other hst
  · intro fd reg hfd
    rw [(hcell _).1, (hcell _).2.1, (hcell _).2.2]
    exact howner fd reg hfd
  · intro other hreact
    by_cases he : other = id
    · subst he
      rw [setCell_self]
      exact ⟨hhandling hreact, by rw [hstage]; exact (hhand other hreact).2⟩
    · rw [setCell_of_ne he]
      exact hhand other hreact
  · intro other
    by_cases he : other = id
    · subst he
      rw [setCell_self]
      exact hused
    · rw [setCell_of_ne he]
      exact husd other
  · intro other
    by_cases he : other = id
    · subst he
      rw [setCell_self]
      exact hempty
    · rw [setCell_of_ne he]
      exact hunt other

/-! ## The slab and the poller step by step -/

/-- What the slab, its lock, the poller and `react` have of one source. -/
structure Place (s : State) (id : Nat) : Prop where
  unborn : s.created ≤ id → (s.cells id).stage = .unborn
  occupied : ∀ key, s.sources.get key = some id →
    (s.cells id).src.key = key ∧ (s.cells id).stage.inSlab = true
  listed : (s.cells id).stage.inSlab = true → s.sources.get (s.cells id).src.key = some id
  vacated : (s.cells id).stage = .removing →
    s.lock = .removing id ∧ s.sources.get (s.cells id).src.key = none
  removing : s.lock = .removing id → (s.cells id).stage = .removing
  registered : (s.cells id).stage = .live ∨ (s.cells id).stage = .removing →
    ∃ reg, s.poller (s.cells id).src.raw = some reg ∧ reg.owner = id
  owner : ∀ fd reg, s.poller fd = some reg → reg.owner = id → (s.cells id).src.raw = fd ∧
    reg.event.key = (s.cells id).src.key ∧
    ((s.cells id).stage = .live ∨ (s.cells id).stage = .removing)
  handling : s.react = .modify id → (s.cells id).crit = .react ∧ (s.cells id).stage.inSlab = true
  used : (s.cells id).crit ≠ .free → (s.cells id).crit ≠ .react → (s.cells id).stage = .live
  untouched : (s.cells id).stage = .adding ∨ (s.cells id).stage = .failed →
    ∀ dir, ((s.cells id).src.state dir).isEmpty = true

theorem Slab.place (h : Slab s) (id : Nat) : Place s id where
  unborn := h.unborn id
  occupied key := h.occupied key id
  listed := h.listed id
  vacated := h.vacated id
  removing := h.removing id
  registered := h.registered id
  owner fd reg hfd hown := hown ▸ h.owner fd reg hfd
  handling := h.handling id
  used := h.used id
  untouched := h.untouched id

theorem Slab.of_places (hok : s.sources.Ok) (hunlimited : s.sources.limited = 0)
    (hlooping : s.react.inLoop = true → s.lock = .react) (h : ∀ id, Place s id) : Slab s where
  ok := hok
  unlimited := hunlimited
  unborn id := (h id).unborn
  occupied key id := (h id).occupied key
  listed id := (h id).listed
  vacated id := (h id).vacated
  removing id := (h id).removing
  registered id := (h id).registered
  owner fd reg hfd := (h reg.owner).owner fd reg hfd rfl
  looping := hlooping
  handling id := (h id).handling
  used id := (h id).used
  untouched id := (h id).untouched

/-- A source that is not concerned has what it had. -/
theorem Place.keep (h : Place s id) (hcell : t.cells id = s.cells id)
    (hcreated : s.created ≤ t.created) (hreact : t.react = s.react)
    (hget : ∀ key, t.sources.get key = some id ↔ s.sources.get key = some id)
    (hnone : s.lock = .removing id → ∀ key, s.sources.get key = none → t.sources.get key = none)
    (hlock : t.lock = .removing id ↔ s.lock = .removing id)
    (hpoller : ∀ fd reg, reg.owner = id → (t.poller fd = some reg ↔ s.poller fd = some reg)) :
    Place t id := by
  constructor
  all_goals rw [hcell]
  case unborn => exact fun hle => h.unborn (Nat.le_trans hcreated hle)
  case occupied => exact fun key hkey => h.occupied key ((hget key).mp hkey)
  case listed => exact fun hin => (hget _).mpr (h.listed hin)
  case vacated =>
    intro hst
    obtain ⟨hheld, hkey⟩ := h.vacated hst
    exact ⟨hlock.mpr hheld, hnone hheld _ hkey⟩
  case removing => exact fun hheld => h.removing (hlock.mp hheld)
  case registered =>
    intro hst
    obtain ⟨reg, hreg, hown⟩ := h.registered hst
    exact ⟨reg, (hpoller _ reg hown).mpr hreg, hown⟩
  case owner => exact fun fd reg hfd hown => h.owner fd reg ((hpoller fd reg hown).mp hfd) hown
  case handling =>
    rw [hreact]
    exact h.handling
  case used => exact h.used
  case untouched => exact h.untouched

/-- A source comes, goes or is registered; the other sources keep what they have. -/
theorem Slab.change (h : Slab s) (hok : t.sources.Ok) (hunlimited : t.sources.limited = 0)
    (hcells : t.cells = Function.update s.cells id cell) (hcreated : s.created ≤ t.created)
    (hreact : t.react = s.react) (hlooping : s.lock = .react → t.lock = .react)
    (hget : ∀ other, other ≠ id → ∀ key,
      t.sources.get key = some other ↔ s.sources.get key = some other)
    (hnone : ∀ other, other ≠ id → s.lock = .removing other → ∀ key,
      s.sources.get key = none → t.sources.get key = none)
    (hlock : ∀ other, other ≠ id → (t.lock = .removing other ↔ s.lock = .removing other))
    (hpoller : ∀ fd reg, reg.owner ≠ id → (t.poller fd = some reg ↔ s.poller fd = some reg))
    (hplace : t.cells id = cell → Place t id) : Slab t := by
  refine Slab.of_places hok hunlimited (fun hx => ?_) fun other => ?_
  · rw [hreact] at hx
    exact hlooping (h.looping hx)
  · by_cases he : other = id
    · subst he
      exact hplace (by rw [hcells, Function.update_self])
    · exact (h.place other).keep (by rw [hcells, Function.update_of_ne he]) hcreated hreact
        (hget other he) (hnone other he) (hlock other he) fun fd reg hown =>
          hpoller fd reg fun hid => he (hown.symm.trans hid)

theorem slab_addIo {raw : Nat} (h : Slab s) (ht : addIo s raw = some t) : Slab t := by
  obtain ⟨sources, hins, hok, hlim, hvacant, hget⟩ := Colo.insert_spec h.ok h.unlimited s.created
  simp only [addIo, hins] at ht
  split at ht
  · rename_i hlock
    obtain rfl := Option.some.inj ht
    have hout : (s.cells s.created).stage.inSlab = false := by
      rw [h.unborn s.created le_rfl]
      rfl
    have hsources (key : Nat) : sources.get key = some s.created → key = s.sources.nextVacant := by
      rw [hget]
      split
      · exact fun _ => ‹_›
      · exact fun hkey => absurd ((h.occupied key _ hkey).2.symm.trans hout) Bool.noConfusion
    refine h.change hok hlim rfl (Nat.le_succ _) rfl (fun hx => hx) ?_ ?_ (fun _ _ => Iff.rfl)
      (fun _ _ _ => Iff.rfl) fun hcell => ?_
    · intro other hne key
      show sources.get key = some other ↔ _
      rw [hget]
      split
      · rename_i hkey
        rw [hkey, hvacant]
        exact iff_of_false (fun hx => hne (Option.some.inj hx).symm) (by simp)
      · exact Iff.rfl
    · intro other _ hheld
      rw [hlock] at hheld
      cases hheld
    · constructor
      all_goals rw [hcell]
      case unborn => exact fun hle => absurd hle (Nat.not_succ_le_self _)
      case occupied => exact fun key hkey => ⟨(hsources key hkey).symm, rfl⟩
      case listed => exact fun _ => (hget _).trans (if_pos rfl)
      case vacated => exact Stage.noConfusion
      case removing => exact fun hx => absurd (hlock.symm.trans hx) SlabLock.noConfusion
      case registered => rintro (hst | hst) <;> cases hst
      case owner =>
        intro fd reg hfd hown
        obtain ⟨-, -, hst⟩ := h.owner fd reg hfd
        rw [hown, h.unborn s.created le_rfl] at hst
        rcases hst with hst | hst <;> cases hst
      case handling =>
        exact fun hx => absurd ((h.handling _ hx).2.symm.trans hout) Bool.noConfusion
      case used => exact fun hx => absurd rfl hx
      case untouched => exact fun _ _ => Private.isEmpty_new
  · cases ht

theorem slab_addPoller {ok : Bool} (h : Slab s) (ht : addPoller s id ok = some t) : Slab t := by
  simp only [addPoller] at ht
  split at ht
  · rename_i hadding
    have hin : (s.cells id).stage.inSlab = true := by rw [hadding]; rfl
    have hborn : ¬s.created ≤ id := fun hle => by
      rw [h.unborn id hle] at hadding
      cases hadding
    have hcrit (hx : (s.cells id).crit ≠ .free) (hy : (s.cells id).crit ≠ .react) : False := by
      have hlive := h.used id hx hy
      rw [hadding] at hlive
      cases hlive
    have hnobody (fd : Nat) (reg : Registration) (hfd : s.poller fd = some reg) :
        reg.owner ≠ id := fun hown => by
      obtain ⟨-, -, hst⟩ := h.owner fd reg hfd
      rw [hown, hadding] at hst
      rcases hst with hst | hst <;> cases hst
    have hunlocked : s.lock ≠ .removing id := fun hx => by
      have hst := h.removing id hx
      rw [hadding] at hst
      cases hst
    split at ht
    · rename_i hadd
      obtain ⟨-, hnone⟩ := hadd
      obtain rfl := Option.some.inj ht
      refine h.change h.ok h.unlimited rfl le_rfl rfl (fun hx => hx) (fun _ _ _ => Iff.rfl)
        (fun _ _ _ _ hx => hx) (fun _ _ => Iff.rfl) ?_ fun hcell => ?_
      · intro fd reg hown
        show Function.update s.poller _ _ fd = some reg ↔ _
        by_cases he : fd = (s.cells id).src.raw
        · rw [he, Function.update_self, hnone]
          refine iff_of_false (fun hx => hown ?_) (by simp)
          rw [← Option.some.inj hx]
        · rw [Function.update_of_ne he]
      · constructor
        all_goals rw [hcell]
        case unborn => exact fun hle => absurd hle hborn
        case occupied => exact fun key hkey => ⟨(h.occupied key id hkey).1, rfl⟩
        case listed => exact fun _ => h.listed id hin
        case vacated => exact Stage.noConfusion
        case removing => exact fun hx => absurd hx hunlocked
        case registered => exact fun _ => ⟨_, Function.update_self .., rfl⟩
        case owner =>
          intro fd reg hfd hown
          have hfd' : Function.update s.poller _ _ fd = some reg := hfd
          by_cases he : fd = (s.cells id).src.raw
          · rw [he, Function.update_self] at hfd'
            obtain rfl := Option.some.inj hfd'
            exact ⟨he.symm, rfl, .inl rfl⟩
          · rw [Function.update_of_ne he] at hfd'
            exact absurd hown (hnobody fd reg hfd')
        case handling => exact fun hx => ⟨(h.handling id hx).1, rfl⟩
        case used => exact fun hx hy => (hcrit hx hy).elim
        case untouched => rintro (hst | hst) <;> cases hst
    · obtain rfl := Option.some.inj ht
      refine h.change h.ok h.unlimited rfl le_rfl rfl (fun hx => hx) (fun _ _ _ => Iff.rfl)
        (fun _ _ _ _ hx => hx) (fun _ _ => Iff.rfl) (fun _ _ _ => Iff.rfl) fun hcell => ?_
      constructor
      all_goals rw [hcell]
      case unborn => exact fun hle => absurd hle hborn
      case occupied => exact fun key hkey => ⟨(h.occupied key id hkey).1, rfl⟩
      case listed => exact fun _ => h.listed id hin
      case vacated => exact Stage.noConfusion
      case removing => exact fun hx => absurd hx hunlocked
      case registered => rintro (hst | hst) <;> cases hst
      case owner => exact fun fd reg hfd hown => absurd hown (hnobody fd reg hfd)
      case handling => exact fun hx => ⟨(h.handling id hx).1, rfl⟩
      case used => exact fun hx hy => (hcrit hx hy).elim
      case untouched => exact fun _ => h.untouched id (.inl hadding)
  · cases ht

/-- The source that is taken out of the slab is no more under its key, and the others are. -/
theorem Slab.remove (h : Slab s) (hin : (s.cells id).stage.inSlab = true) {sources : Colo Nat}
    (hget : ∀ key, sources.get key =
      if key = (s.cells id).src.key then none else s.sources.get key) :
    (∀ key, sources.get key ≠ some id) ∧ ∀ other, other ≠ id → ∀ key,
      sources.get key = some other ↔ s.sources.get key = some other := by
  constructor
  · intro key hkey
    rw [hget] at hkey
    split at hkey
    · cases hkey
    · rename_i hne
      exact hne (h.occupied key id hkey).1.symm
  · intro other hne key
    rw [hget]
    split
    · rename_i hkey
      rw [hkey, h.listed id hin]
      exact iff_of_false (by simp) fun hx => hne (Option.some.inj hx).symm
    · exact Iff.rfl

theorem slab_addUndo (h : Slab s) (ht : addUndo s id = some t) : Slab t := by
  obtain ⟨hok, hlim, hget⟩ := Colo.remove_spec h.ok (s.cells id).src.key
  simp only [addUndo] at ht
  split at ht
  · rename_i hcond
    obtain ⟨hfailed, hlock⟩ := hcond
    obtain rfl := Option.some.inj ht
    have hin : (s.cells id).stage.inSlab = true := by rw [hfailed]; rfl
    obtain ⟨hgone, hothers⟩ := h.remove hin hget
    have hheld (other : Nat) : s.lock ≠ .removing other := by
      rw [hlock]
      exact SlabLock.noConfusion
    refine h.change hok (hlim.trans h.unlimited) rfl le_rfl rfl (fun hx => hx) hothers
      (fun other _ hx => absurd hx (hheld other)) (fun _ _ => Iff.rfl) (fun _ _ _ => Iff.rfl)
      fun hcell => ?_
    constructor
    all_goals rw [hcell]
    case unborn =>
      intro hle
      rw [h.unborn id hle] at hfailed
      cases hfailed
    case occupied => exact fun key hkey => absurd hkey (hgone key)
    case listed => exact Bool.noConfusion
    case vacated => exact Stage.noConfusion
    case removing => exact fun hx => absurd hx (hheld id)
    case registered => rintro (hst | hst) <;> cases hst
    case owner =>
      intro fd reg hfd hown
      obtain ⟨-, -, hst⟩ := h.owner fd reg hfd
      rw [hown, hfailed] at hst
      rcases hst with hst | hst <;> cases hst
    case handling =>
      -- `react` would hold the lock of the slab
      intro hx
      have hreact := h.looping (by rw [show s.react = _ from hx]; rfl)
      exact absurd (hlock.symm.trans hreact) SlabLock.noConfusion
    case used =>
      intro hx hy
      have hlive := h.used id hx hy
      rw [hfailed] at hlive
      cases hlive
    case untouched => rintro (hst | hst) <;> cases hst
  · cases ht

theorem slab_removeIo (h : Slab s) (ht : removeIo s id = some t) : Slab t := by
  obtain ⟨hok, hlim, hget⟩ := Colo.remove_spec h.ok (s.cells id).src.key
  simp only [removeIo] at ht
  split at ht
  · rename_i hcond
    obtain ⟨hlive, hfree, hlock⟩ := hcond
    obtain rfl := Option.some.inj ht
    have hin : (s.cells id).stage.inSlab = true := by rw [hlive]; rfl
    obtain ⟨hgone, hothers⟩ := h.remove hin hget
    refine h.change hok (hlim.trans h.unlimited) rfl le_rfl rfl ?_ hothers ?_ ?_
      (fun _ _ _ => Iff.rfl) fun hcell => ?_
    · intro hx
      rw [hlock] at hx
      cases hx
    · intro other _ hx
      rw [hlock] at hx
      cases hx
    · intro other hne
      rw [hlock]
      exact iff_of_false (fun hx => hne (SlabLock.removing.inj hx).symm) SlabLock.noConfusion
    · constructor
      all_goals rw [hcell]
      case unborn =>
        intro hle
        rw [h.unborn id hle] at hlive
        cases hlive
      case occupied => exact fun key hkey => absurd hkey (hgone key)
      case listed => exact Bool.noConfusion
      case vacated => exact fun _ => ⟨rfl, (hget _).trans (if_pos rfl)⟩
      case removing => exact fun _ => rfl
      case registered => exact fun _ => h.registered id (.inl hlive)
      case owner =>
        intro fd reg hfd hown
        obtain ⟨hraw, hkey, -⟩ := (h.place id).owner fd reg hfd hown
        exact ⟨hraw, hkey, .inr rfl⟩
      case handling =>
        intro hx
        have hreact := (h.handling id hx).1
        rw [hfree] at hreact
        cases hreact
      case used => exact fun hx => absurd hfree hx
      case untouched => rintro (hst | hst) <;> cases hst
  · cases ht

theorem slab_removePoller (h : Slab s) (ht : removePoller s = some t) : Slab t := by
  unfold removePoller at ht
  split at ht
  · rename_i id hlock
    obtain rfl := Option.some.inj ht
    have hremoving := h.removing id hlock
    obtain ⟨-, hkey⟩ := h.vacated id hremoving
    obtain ⟨reg, hreg, hown⟩ := h.registered id (.inr hremoving)
    have hgone (key : Nat) : s.sources.get key ≠ some id := fun hx => by
      have hin := (h.occupied key id hx).2
      rw [hremoving] at hin
      cases hin
    refine h.change h.ok h.unlimited rfl le_rfl rfl ?_ (fun _ _ _ => Iff.rfl)
      (fun _ _ _ _ hx => hx) ?_ ?_ fun hcell => ?_
    · intro hx
      rw [hlock] at hx
      cases hx
    · intro other hne
      rw [hlock]
      exact iff_of_false SlabLock.noConfusion fun hx => hne (SlabLock.removing.inj hx).symm
    · intro fd reg' hne
      show Function.update s.poller _ _ fd = some reg' ↔ _
      by_cases he : fd = (s.cells id).src.raw
      · rw [he, Function.update_self, hreg]
        refine iff_of_false (by simp) fun hx => hne ?_
        rw [← Option.some.inj hx, hown]
      · rw [Function.update_of_ne he]
    · constructor
      all_goals rw [hcell]
      case unborn =>
        intro hle
        rw [h.unborn id hle] at hremoving
        cases hremoving
      case occupied => exact fun key hkey => absurd hkey (hgone key)
      case listed => exact Bool.noConfusion
      case vacated => exact Stage.noConfusion
      case removing => exact SlabLock.noConfusion
      case registered => rintro (hst | hst) <;> cases hst
      case owner =>
        intro fd reg' hfd hown'
        have hfd' : Function.update s.poller _ _ fd = some reg' := hfd
        by_cases he : fd = (s.cells id).src.raw
        · rw [he, Function.update_self] at hfd'
          cases hfd'
        · rw [Function.update_of_ne he] at hfd'
          exact absurd ((h.place id).owner fd reg' hfd' hown').1.symm he
      case handling =>
        intro hx
        have hreact := h.looping (by rw [show s.react = _ from hx]; rfl)
        exact absurd (hlock.symm.trans hreact) SlabLock.noConfusion
      case used =>
        intro hx hy
        have hlive := h.used id hx hy
        rw [hremoving] at hlive
        cases hlive
      case untouched => rintro (hst | hst) <;> cases hst
  · cases ht

theorem modifyPoller_eq {poller : Nat → Option Registration} {reg : Registration} (event : Event)
    (h : poller fd = some reg) : modifyPoller poller fd event =
      Function.update poller fd (some { reg with event := event, enabled := true }) := by
  rw [modifyPoller, h]

/-- `poller.modify` of a live source renews the registration that it has. -/
theorem Slab.modify (h : Slab s) (hlive : (s.cells id).stage = .live) :
    Slab { s with
      poller := modifyPoller s.poller (s.cells id).src.raw (s.cells id).src.interest } := by
  obtain ⟨reg, hsome, hown⟩ := h.registered id (.inl hlive)
  rw [modifyPoller_eq _ hsome]
  refine { h with registered := fun other hother => ?_, owner := fun fd reg' hfd => ?_ }
  · obtain ⟨reg', hreg', hown'⟩ := h.registered other hother
    show ∃ r, Function.update s.poller _ _ (s.cells other).src.raw = some r ∧ r.owner = other
    by_cases he : (s.cells other).src.raw = (s.cells id).src.raw
    · rw [he, Function.update_self]
      rw [he, hsome] at hreg'
      obtain rfl := Option.some.inj hreg'
      exact ⟨_, rfl, hown'⟩
    · rw [Function.update_of_ne he]
      exact ⟨reg', hreg', hown'⟩
  · have hfd' : Function.update s.poller (s.cells id).src.raw _ fd = some reg' := hfd
    by_cases he : fd = (s.cells id).src.raw
    · rw [he, Function.update_self] at hfd'
      obtain rfl := Option.some.inj hfd'
      obtain ⟨hraw, -, hst⟩ := h.owner _ reg hsome
      refine ⟨hraw.trans he.symm, ?_, hst⟩
      rw [hown]
      rfl
    · rw [Function.update_of_ne he] at hfd'
      exact h.owner fd reg' hfd'

theorem slab_collect {readable writable : Bool} (h : Slab s)
    (ht : collect s fd readable writable = some t) : Slab t := by
  unfold collect at ht
  split at ht
  · split at ht
    · rename_i reg hreg
      split at ht
      · obtain rfl := Option.some.inj ht
        refine { h with registered := fun other hother => ?_, owner := fun fd' reg' hfd => ?_ }
        · obtain ⟨reg', hreg', hown'⟩ := h.registered other hother
          show ∃ r, Function.update s.poller _ _ (s.cells other).src.raw = some r ∧ r.owner = other
          by_cases he : (s.cells other).src.raw = fd
          · rw [he, Function.update_self]
            rw [he, hreg] at hreg'
            obtain rfl := Option.some.inj hreg'
            exact ⟨_, rfl, hown'⟩
          · rw [Function.update_of_ne he]
            exact ⟨reg', hreg', hown'⟩
        · have hfd' : Function.update s.poller fd _ fd' = some reg' := hfd
          by_cases he : fd' = fd
          · rw [he, Function.update_self] at hfd'
            obtain rfl := Option.some.inj hfd'
            rw [he]
            exact h.owner fd reg hreg
          · rw [Function.update_of_ne he] at hfd'
            exact h.owner fd' reg' hfd'
      · cases ht
    · cases ht
  · cases ht

/-- A step of a call on a live source that changes one of its directions. -/
theorem Slab.setDir (h : Slab s) (hlive : (s.cells id).stage = .live)
    (hcrit : (s.cells id).crit ≠ .react) (dir : Dir) (p : Private) (crit : Crit) :
    Slab (Reactor.setCell s id
      { s.cells id with src := (s.cells id).src.setDir dir p, crit := crit }) := by
  refine h.setCell rfl rfl rfl (fun hreact => ?_) (fun _ _ => hlive) (fun hst => ?_)
  · exact absurd (h.handling id hreact).1 hcrit
  · rw [show (s.cells id).stage = .live from hlive] at hst
    simp at hst

theorem slab_pollReady (h : Slab s) (ht : pollReady s id dir cx = some t) : Slab t := by
  simp only [pollReady] at ht
  split at ht
  · rename_i hcond
    obtain ⟨hlive, hfree⟩ := hcond
    have hcrit : (s.cells id).crit ≠ .react := by rw [hfree]; exact Crit.noConfusion
    split at ht
    · obtain rfl := Option.some.inj ht
      exact { h.setDir hlive hcrit dir _ (s.cells id).crit with }
    · split at ht
      · obtain rfl := Option.some.inj ht
        exact h
      · obtain rfl := Option.some.inj ht
        exact h.setDir hlive hcrit dir _ _
  · cases ht

theorem slab_newFuture (h : Slab s) (ht : newFuture s f id dir = some t) : Slab t := by
  simp only [newFuture] at ht
  split at ht
  · obtain rfl := Option.some.inj ht
    exact { h with }
  · cases ht

theorem slab_pollFuture (h : Slab s) (ht : pollFuture s f cx = some t) : Slab t := by
  simp only [pollFuture] at ht
  split at ht
  · rename_i hcond
    obtain ⟨-, hlive, hfree⟩ := hcond
    have hcrit : (s.cells (s.futures f).source).crit ≠ .react := by
      rw [hfree]
      exact Crit.noConfusion
    split at ht
    · obtain rfl := Option.some.inj ht
      exact { h with }
    · split at ht
      · obtain rfl := Option.some.inj ht
        exact h.setDir hlive hcrit _ _ _
      · split at ht
        · obtain rfl := Option.some.inj ht
          exact { h.setDir hlive hcrit (s.futures f).dir _ _ with }
        · cases ht
  · cases ht

theorem slab_dropFuture (h : Slab s) (ht : dropFuture s f = some t) : Slab t := by
  simp only [dropFuture] at ht
  split at ht
  · split at ht
    · obtain rfl := Option.some.inj ht
      exact { h with }
    · rename_i i _
      split at ht
      · rename_i hfree
        obtain rfl := Option.some.inj ht
        have hset : Slab (Reactor.setCell s (s.futures f).source { s.cells (s.futures f).source with
            src := (s.cells (s.futures f).source).src.setDir (s.futures f).dir
              { (s.cells (s.futures f).source).src.state (s.futures f).dir with
                wakers := (((s.cells (s.futures f).source).src.state
                  (s.futures f).dir).wakers.remove i).2 } }) := by
          refine h.setCell rfl rfl rfl (fun hreact => (h.handling _ hreact).1)
            (fun hne => absurd hfree hne) (fun hst dir => ?_)
          have hempty := h.untouched _ hst
          by_cases he : dir = (s.futures f).dir
          · rw [he, Source.setDir_self]
            exact Private.isEmpty_remove (hempty _) i
          · rw [Source.setDir_of_ne he]
            exact hempty dir
        exact { hset with }
      · cases ht
  · cases ht

theorem slab_ticksStep (h : Slab s) (ht : ticksStep s id = some t) : Slab t := by
  simp only [ticksStep] at ht
  split at ht
  · rename_i dir wasEmpty hcrit
    obtain rfl := Option.some.inj ht
    have hlive := h.used id (by rw [hcrit]; exact Crit.noConfusion)
      (by rw [hcrit]; exact Crit.noConfusion)
    exact h.setDir hlive (by rw [hcrit]; exact Crit.noConfusion) _ _ _
  · rename_i dir f i wasEmpty cx hcrit
    obtain rfl := Option.some.inj ht
    have hlive := h.used id (by rw [hcrit]; exact Crit.noConfusion)
      (by rw [hcrit]; exact Crit.noConfusion)
    exact { h.setDir hlive (by rw [hcrit]; exact Crit.noConfusion) dir _ _ with }
  · cases ht

theorem slab_modifyStep (h : Slab s) (ht : modifyStep s id = some t) : Slab t := by
  simp only [modifyStep] at ht
  split at ht
  · rename_i hcrit
    obtain rfl := Option.some.inj ht
    have hlive := h.used id (by rw [hcrit]; exact Crit.noConfusion)
      (by rw [hcrit]; exact Crit.noConfusion)
    refine (h.modify hlive).setCell rfl rfl rfl (fun hreact => ?_) (fun hne => absurd rfl hne)
      (h.untouched id)
    rw [(h.handling id hreact).1] at hcrit
    cases hcrit
  · cases ht

/-- An event leaves a source that nobody has used as it is. -/
theorem Slab.emit (h : Slab s) (id : Nat) (ev : Event)
    (hst : (s.cells id).stage = .adding ∨ (s.cells id).stage = .failed) (dir : Dir) :
    (((s.cells id).src.emit s.tick ev []).1.state dir).isEmpty = true := by
  rw [Source.emit_isEmpty, h.untouched id hst dir, Bool.or_true]

/-- The source of a handled event that has wakers left is live. -/
theorem Slab.waiting_live (h : Slab s) (hpc : s.react = .modify id)
    (hwait : (s.cells id).src.waiting = true) : (s.cells id).stage = .live := by
  obtain ⟨-, hslab⟩ := h.handling id hpc
  obtain ⟨dir, hdir⟩ := Source.waiting_iff.mp hwait
  by_contra hne
  have hearly : (s.cells id).stage = .adding ∨ (s.cells id).stage = .failed := by
    cases hst : (s.cells id).stage <;> simp_all [Stage.inSlab]
  rw [h.untouched id hearly dir] at hdir
  cases hdir

theorem Slab.loop (h : Slab s) (hpc : s.react = .modify id) : Slab { s with react := .loop } :=
  { h with
    looping := fun _ => h.looping (by rw [hpc]; rfl)
    handling := fun _ hx => ReactPc.noConfusion hx }

theorem slab_reactStep (h : Slab s) (ht : reactStep s = some t) : Slab t := by
  unfold reactStep at ht
  split at ht
  · obtain rfl := Option.some.inj ht
    exact { h with
      looping := fun hx => Bool.noConfusion hx
      handling := fun _ hx => ReactPc.noConfusion hx }
  · obtain rfl := Option.some.inj ht
    exact { h with
      looping := fun hx => Bool.noConfusion hx
      handling := fun _ hx => ReactPc.noConfusion hx }
  · obtain rfl := Option.some.inj ht
    refine { h with looping := fun hx => ?_, handling := fun other hx => ?_ }
    · by_cases he : s.events = [] <;> simp [he, ReactPc.inLoop] at hx
    · by_cases he : s.events = [] <;> simp [he] at hx
  · split at ht
    · rename_i hlock
      obtain rfl := Option.some.inj ht
      refine { h with
        vacated := fun other hst => ?_
        removing := fun _ hx => SlabLock.noConfusion hx
        looping := fun _ => rfl
        handling := fun _ hx => ReactPc.noConfusion hx }
      cases hlock.symm.trans (h.vacated other hst).1
    · cases ht
  · rename_i hpc
    have hlock := h.looping (by rw [hpc]; rfl)
    split at ht
    · obtain rfl := Option.some.inj ht
      refine { h with
        vacated := fun other hst => ?_
        removing := fun _ hx => SlabLock.noConfusion hx
        looping := fun hx => Bool.noConfusion hx
        handling := fun _ hx => ReactPc.noConfusion hx }
      cases hlock.symm.trans (h.vacated other hst).1
    · rename_i c rest _
      split at ht
      · obtain rfl := Option.some.inj ht
        exact { h with }
      · rename_i id hget
        dsimp only at ht
        split at ht
        · rename_i hfree
          obtain rfl := Option.some.inj ht
          have hset : Slab (Reactor.setCell s id { s.cells id with
              src := ((s.cells id).src.emit s.tick c.ev []).1, crit := .react }) :=
            h.setCell Source.emit_frame.1 Source.emit_frame.2 rfl (fun _ => rfl)
              (fun _ hne => absurd rfl hne) (h.emit id c.ev)
          refine { hset with looping := fun _ => hlock, handling := fun other hx => ?_ }
          obtain rfl : id = other := ReactPc.modify.inj hx
          rw [setCell_self]
          exact ⟨rfl, (h.occupied _ _ hget).2⟩
        · cases ht
  · rename_i id hpc
    obtain rfl := Option.some.inj ht
    by_cases hwait : (s.cells id).src.waiting = true
    · rw [if_pos hwait]
      exact ((h.loop hpc).modify (h.waiting_live hpc hwait)).setCell rfl rfl rfl
        (fun hx => ReactPc.noConfusion hx) (fun hne => absurd rfl hne) (h.untouched id)
    · rw [if_neg hwait]
      exact (h.loop hpc).setCell rfl rfl rfl (fun hx => ReactPc.noConfusion hx)
        (fun hne => absurd rfl hne) (h.untouched id)

theorem slab_step {a : Act} (h : Slab s) (ht : step s a = some t) : Slab t := by
  cases a with
  | addIo raw => exact slab_addIo h ht
  | addPoller id ok => exact slab_addPoller h ht
  | addUndo id => exact slab_addUndo h ht
  | removeIo id => exact slab_removeIo h ht
  | removePoller => exact slab_removePoller h ht
  | pollReady id dir cx => exact slab_pollReady h ht
  | newFuture f id dir => exact slab_newFuture h ht
  | pollFuture f cx => exact slab_pollFuture h ht
  | dropFuture f => exact slab_dropFuture h ht
  | ticks id => exact slab_ticksStep h ht
  | modify id => exact slab_modifyStep h ht
  | collect fd readable writable => exact slab_collect h ht
  | react => exact slab_reactStep h ht

end Cynthia.Io.Reactor
