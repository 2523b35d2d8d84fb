import Cynthia.Process.Child

/-! Nobody sleeps through the end of a process, and no process that is dropped stays a
zombie. -/

namespace Cynthia.Process

open Transition Channels Exchange

/-! ## Processes, guards and calls -/

/-- The handler is installed when the guard is there. -/
def GuardPc.installed : GuardPc → Bool
  | .free | .spawned | .failed => false
  | _ => true

structure Guarded (s : State) : Prop where
  handler : ∀ c, (s.procs c).guard.installed = true → s.handler = true
  held : ∀ f c, (s.calls f).holds c = true → (s.procs c).guard = .live
  fresh : ∀ f, s.started ≤ f → (s.calls f).pc = .free
  unspawned : ∀ c, s.spawned ≤ c → (s.procs c).guard = .free
  status : ∀ f status, (s.calls f).pc = .done status →
    (s.procs (s.calls f).child).phase = .reaped status ∧
      (s.procs (s.calls f).child).guard ≠ .free

theorem Phase.tryWait_cases (p : Phase) :
    (p = .running ∧ p.tryWait = (none, .running)) ∨
      ∃ status, (p = .exited status ∨ p = .reaped status) ∧
        p.tryWait = (some status, .reaped status) := by
  cases p with
  | running => exact .inl ⟨rfl, rfl⟩
  | exited status => exact .inr ⟨status, .inl rfl, rfl⟩
  | reaped status => exact .inr ⟨status, .inr rfl, rfl⟩

section Guards

variable {s t : State} {a : Act} {f c : Nat}

theorem checkStatus_cases (s : State) (f : Nat) (listening : Bool) :
    ((s.procs (s.calls f).child).phase = .running ∧
      s.checkStatus f listening = s.setPc f (if listening then .await else .listen)) ∨
    ∃ status, ((s.procs (s.calls f).child).phase = .exited status ∨
        (s.procs (s.calls f).child).phase = .reaped status) ∧
      s.checkStatus f listening =
        { (s.setPhase (s.calls f).child (.reaped status)).setPc f (.done status) with
          sigchld := if listening then s.sigchld.drop f else s.sigchld } := by
  rcases (s.procs (s.calls f).child).phase.tryWait_cases with ⟨hp, hw⟩ | ⟨status, hp, hw⟩
  · exact .inl ⟨hp, by simp only [State.checkStatus, hw]⟩
  · exact .inr ⟨status, hp, by simp only [State.checkStatus, hw]⟩

theorem Guarded.not_holds (h : Guarded s) (hc : s.held c = false) (f : Nat) :
    (s.calls f).holds c = false := by
  simp only [State.held, Bool.or_eq_false_iff, List.any_eq_false, List.mem_range] at hc
  rcases Nat.lt_or_ge f s.started with hlt | hge
  · simpa using hc.2 f hlt
  · simp [Call.holds, h.fresh f hge]

/-- One process moves on. -/
theorem Guarded.setProc {p : Proc} (h : Guarded s) (hprocs : t.procs = Function.update s.procs c p)
    (hcalls : t.calls = s.calls) (hstarted : t.started = s.started)
    (hspawned : t.spawned = s.spawned) (hhandler : s.handler = true → t.handler = true)
    (hfree : (s.procs c).guard ≠ .free) (hguard : p.guard ≠ .free)
    (hinst : p.guard.installed = true → t.handler = true)
    (hlive : (s.procs c).guard = .live → p.guard = .live ∨ s.held c = false)
    (hreaped : ∀ status, (s.procs c).phase = .reaped status → p.phase = .reaped status) :
    Guarded t := by
  have hself : t.procs c = p := by rw [hprocs, Function.update_self]
  have hother : ∀ d, d ≠ c → t.procs d = s.procs d := fun d hne => by
    rw [hprocs, Function.update_of_ne hne]
  refine ⟨fun d hd => ?_, fun f d hd => ?_, ?_, fun d hd => ?_, fun f status hpc => ?_⟩
  · rcases eq_or_ne d c with rfl | hne
    · exact hinst (hself ▸ hd)
    · exact hhandler (h.handler d (hother d hne ▸ hd))
  · rw [hcalls] at hd
    rcases eq_or_ne d c with rfl | hne
    · rw [hself]
      refine (hlive (h.held f d hd)).resolve_right fun hheld => ?_
      simp [h.not_holds hheld f] at hd
    · rw [hother d hne]
      exact h.held f d hd
  · rw [hcalls, hstarted]
    exact h.fresh
  · have hold := h.unspawned d (hspawned ▸ hd)
    rw [hother d fun heq => hfree (heq ▸ hold)]
    exact hold
  · rw [hcalls] at hpc ⊢
    obtain ⟨hphase, hne⟩ := h.status f status hpc
    rcases eq_or_ne (s.calls f).child c with rfl | hchild
    · rw [hself]
      exact ⟨hreaped status hphase, hguard⟩
    · rw [hother _ hchild]
      exact ⟨hphase, hne⟩

theorem Guarded.setPhase (phase : Phase) (h : Guarded s) (hfree : (s.procs c).guard ≠ .free)
    (hreaped : ∀ status, (s.procs c).phase = .reaped status → phase = .reaped status) :
    Guarded (s.setPhase c phase) :=
  h.setProc rfl rfl rfl rfl id hfree hfree (h.handler c) .inl hreaped

/-- A process that has ended is waited for. -/
theorem Guarded.reap {status : Nat} (h : Guarded s) (hfree : (s.procs c).guard ≠ .free)
    (hp : (s.procs c).phase = .exited status ∨ (s.procs c).phase = .reaped status) :
    Guarded (s.setPhase c (.reaped status)) := by
  refine h.setPhase (.reaped status) hfree fun st hst => ?_
  rcases hp with hp | hp <;> cases hp.symm.trans hst
  rfl

/-- One call moves on. -/
theorem Guarded.setCall {pc : CallPc} (h : Guarded s) (hprocs : t.procs = s.procs)
    (hcalls : t.calls = Function.update s.calls f { s.calls f with pc })
    (hstarted : t.started = s.started) (hspawned : t.spawned = s.spawned)
    (hhandler : t.handler = s.handler) (hholds : (s.calls f).holds (s.calls f).child = true)
    (hdone : ∀ status, pc = .done status → (s.procs (s.calls f).child).phase = .reaped status) :
    Guarded t := by
  have hself : t.calls f = { s.calls f with pc } := by rw [hcalls, Function.update_self]
  have hother : ∀ g, g ≠ f → t.calls g = s.calls g := fun g hne => by
    rw [hcalls, Function.update_of_ne hne]
  have hlive := h.held f _ hholds
  refine ⟨?_, fun g c hc => ?_, fun g hg => ?_, ?_, fun g status hpc => ?_⟩
  · rw [hprocs, hhandler]
    exact h.handler
  · rw [hprocs]
    rcases eq_or_ne g f with rfl | hne
    · rw [hself] at hc
      obtain ⟨hchild, -⟩ := Bool.and_eq_true_iff.mp hc
      exact beq_iff_eq.mp hchild ▸ hlive
    · exact h.held g c (hother g hne ▸ hc)
  · have hold := h.fresh g (hstarted ▸ hg)
    have hne : g ≠ f := by
      rintro rfl
      simp [Call.holds, hold] at hholds
    rw [hother g hne]
    exact hold
  · rw [hprocs, hspawned]
    exact h.unspawned
  · rw [hprocs]
    rcases eq_or_ne g f with rfl | hne
    · rw [hself] at hpc ⊢
      exact ⟨hdone status hpc, by simp [hlive]⟩
    · rw [hother g hne] at hpc ⊢
      exact h.status g status hpc

theorem Guarded.frame (h : Guarded s) (hprocs : t.procs = s.procs) (hcalls : t.calls = s.calls)
    (hstarted : t.started = s.started) (hspawned : t.spawned = s.spawned)
    (hhandler : t.handler = s.handler) : Guarded t := by
  obtain ⟨h1, h2, h3, h4, h5⟩ := h
  constructor <;> simpa only [hprocs, hcalls, hstarted, hspawned, hhandler]

theorem Guarded.checkStatus {listening : Bool} (h : Guarded s)
    (hholds : (s.calls f).holds (s.calls f).child = true) :
    Guarded (s.checkStatus f listening) := by
  have hlive := h.held f _ hholds
  rcases checkStatus_cases s f listening with ⟨-, hs⟩ | ⟨status, hp, hs⟩ <;> rw [hs]
  · refine h.setCall rfl rfl rfl rfl rfl hholds fun status hpc => ?_
    split at hpc <;> cases hpc
  · have hnext := h.reap (c := (s.calls f).child) (by simp [hlive]) hp
    refine hnext.setCall rfl rfl rfl rfl rfl hholds fun st hst => ?_
    cases hst
    simp [State.setPhase]

theorem guarded_poll (h : Guarded s) (ht : s.poll f = some t) : Guarded t := by
  unfold State.poll at ht
  cases hpc : (s.calls f).pc <;> simp only [hpc] at ht
  case free | done | dropped => cases ht
  all_goals have hholds : (s.calls f).holds (s.calls f).child = true := by simp [Call.holds, hpc]
  case fresh | tryWait =>
    cases ht
    exact h.checkStatus hholds
  case listen =>
    cases ht
    exact h.setCall rfl rfl rfl rfl rfl hholds nofun
  case await | asleep =>
    split at ht <;> cases ht
    all_goals exact h.setCall rfl rfl rfl rfl rfl hholds nofun

theorem guarded_dropCall (h : Guarded s) (ht : s.dropCall f = some t) : Guarded t := by
  unfold State.dropCall at ht
  cases hpc : (s.calls f).pc <;> simp only [hpc] at ht
  case fresh | asleep =>
    cases ht
    exact h.setCall rfl rfl rfl rfl rfl (by simp [Call.holds, hpc]) nofun
  all_goals cases ht

theorem guarded_dropGuard (h : Guarded s) (ht : s.dropGuard c = some t) : Guarded t := by
  unfold State.dropGuard at ht
  have hhandler := h.handler c
  cases hg : (s.procs c).guard <;> simp only [hg] at ht hhandler
  case live =>
    split at ht <;> cases ht
    rename_i hheld
    refine h.setProc rfl rfl rfl rfl id (by simp [hg]) ?_ (fun _ => hhandler rfl)
      (fun _ => .inr (Bool.not_eq_true _ ▸ hheld)) fun _ => id
    split <;> nofun
  case dropLock =>
    split at ht <;> cases ht
    exact h.setProc rfl rfl rfl rfl id (by simp [hg]) nofun (fun _ => hhandler rfl) (by simp [hg])
      fun _ => id
  case dropWait =>
    rcases (s.procs c).phase.tryWait_cases with ⟨hp, hw⟩ | ⟨status, hp, hw⟩ <;>
      rw [hw] at ht <;> cases ht
    · exact h.setProc rfl rfl rfl rfl id (by simp [hg]) nofun (fun _ => hhandler rfl) (by simp [hg])
        fun _ => id
    · refine (h.reap (c := c) (by simp [hg]) hp).setProc rfl rfl rfl rfl id ?_ nofun
        (fun _ => hhandler rfl) ?_ fun _ => id
      all_goals simp [State.setPhase, hg]
  case dropPush =>
    cases ht
    exact h.setProc rfl rfl rfl rfl id (by simp [hg]) nofun (fun _ => hhandler rfl) (by simp [hg])
      fun _ => id
  all_goals cases ht

theorem guarded_process (h : Guarded s) (hz : ∀ c ∈ s.zombies, (s.procs c).guard = .gone)
    (ht : s.process = some t) : Guarded t := by
  unfold State.process at ht
  cases hth : s.thread <;> simp only [hth] at ht
  case absent => cases ht
  case scan i =>
    split at ht
    · cases ht
      exact h.frame rfl rfl rfl rfl rfl
    · rename_i c hc
      rcases (s.procs c).phase.tryWait_cases with ⟨hp, hw⟩ | ⟨status, hp, hw⟩ <;>
        rw [hw] at ht <;> cases ht
      · exact h.frame rfl rfl rfl rfl rfl
      · exact (h.reap (c := c) (by simp [hz c (List.mem_of_getElem? hc)]) hp).frame rfl rfl rfl
          rfl rfl
  case notify =>
    cases ht
    exact h.frame rfl rfl rfl rfl rfl
  case wait | lock =>
    split at ht <;> cases ht
    exact h.frame rfl rfl rfl rfl rfl

theorem guarded_spawn (reapOnDrop : Bool) (h : Guarded s) : Guarded (s.spawn reapOnDrop) := by
  have hfree := h.unspawned s.spawned (Nat.le_refl _)
  have hother : ∀ d, d ≠ s.spawned → (s.spawn reapOnDrop).procs d = s.procs d :=
    fun d hne => Function.update_of_ne hne _ _
  have hold : ∀ d, (s.procs d).guard ≠ .free → d ≠ s.spawned := by
    rintro d hd rfl
    exact hd hfree
  refine ⟨fun d hd => ?_, fun f d hd => ?_, h.fresh, fun d hd => ?_, fun f status hpc => ?_⟩
  · rcases eq_or_ne d s.spawned with rfl | hne
    · simp [State.spawn, GuardPc.installed] at hd
    · exact h.handler d (hother d hne ▸ hd)
  · have hlive := h.held f d hd
    rw [hother d (hold d (by simp [hlive]))]
    exact hlive
  · have hle : s.spawned ≤ d := Nat.le_of_succ_le hd
    rw [hother d (Nat.ne_of_gt hd)]
    exact h.unspawned d hle
  · obtain ⟨hphase, hne⟩ := h.status f status hpc
    have hsame := hother _ (hold _ hne)
    exact ⟨(congrArg Proc.phase hsame).trans hphase, fun hg => hne (hsame ▸ hg)⟩

theorem guarded_status (h : Guarded s) (hlive : (s.procs c).guard = .live) :
    Guarded (s.status c) := by
  have hother : ∀ g, g ≠ s.started → (s.status c).calls g = s.calls g :=
    fun g hne => Function.update_of_ne hne _ _
  refine ⟨h.handler, fun g d hd => ?_, fun g hg => ?_, h.unspawned, fun g status hpc => ?_⟩
  · rcases eq_or_ne g s.started with rfl | hne
    · simp only [State.status, Function.update_self, Call.holds, Bool.and_eq_true,
        beq_iff_eq] at hd
      exact hd.1 ▸ hlive
    · exact h.held g d (hother g hne ▸ hd)
  · rw [hother g (Nat.ne_of_gt hg)]
    exact h.fresh g (Nat.le_of_succ_le hg)
  · rcases eq_or_ne g s.started with rfl | hne
    · simp [State.status] at hpc
    · rw [hother g hne] at hpc ⊢
      exact h.status g status hpc

theorem guarded_step (h : Guarded s) (hz : ∀ c ∈ s.zombies, (s.procs c).guard = .gone)
    (ht : step s a = some t) : Guarded t := by
  cases a with
  | poll => exact guarded_poll h ht
  | dropCall => exact guarded_dropCall h ht
  | dropGuard => exact guarded_dropGuard h ht
  | process => exact guarded_process h hz ht
  | spawn reapOnDrop =>
    cases ht
    exact guarded_spawn reapOnDrop h
  | signal =>
    simp only [step] at ht
    split at ht <;> cases ht
    exact h.frame rfl rfl rfl rfl rfl
  | status c =>
    simp only [step] at ht
    split at ht <;> cases ht
    rename_i hc
    exact guarded_status h hc.1
  | wrapFails c | forceSignals c | forceZombies c =>
    simp only [step] at ht
    split at ht <;> cases ht
    rename_i hg
    have hhandler := h.handler c
    simp only [hg] at hhandler
    refine h.setProc rfl rfl rfl rfl ?_ (by simp [hg]) nofun ?_ (by simp [hg]) fun _ => id
    all_goals simp_all [GuardPc.installed, State.setGuard]
  | exit c status =>
    simp only [step] at ht
    split at ht <;> cases ht
    rename_i hc
    exact (h.setPhase (c := c) (.exited status) hc.1 (by simp [hc.2])).frame rfl rfl rfl
      rfl rfl
  | tryStatus c | dropChild c =>
    simp only [step] at ht
    split at ht <;> cases ht
    rename_i hc
    refine h.setProc rfl rfl rfl rfl id (by simp [hc.1]) (by simp [hc.1]) (h.handler c) .inl ?_
    simp +contextual [Phase.tryWait]

end Guards

/-! ## Listening for the signal -/

/-- The call has a listener. -/
def CallPc.listening : CallPc → Bool
  | .tryWait true | .await | .asleep => true
  | _ => false

/-- The call has seen the process run since it had its listener. -/
def CallPc.waits : CallPc → Bool
  | .await | .asleep => true
  | _ => false

structure Told (s : State) : Prop where
  listed : ∀ f, (s.calls f).pc.listening = true → f ∈ s.sigchld.map Prod.fst
  told : ∀ f, (s.calls f).pc.waits = true → (f, false) ∈ s.sigchld →
    (s.procs (s.calls f).child).phase ≠ .running → s.pending = true ∨ s.thread = .notify

section Listening

variable {s t : State} {a : Act} {f c : Nat}

theorem Told.frame (h : Told s)
    (hcalls : ∀ f, (t.calls f).pc.listening = true → t.calls f = s.calls f)
    (hev : t.sigchld = s.sigchld) (hpending : s.pending = true → t.pending = true)
    (hthread : s.thread = .notify → t.thread = .notify)
    (hphase : ∀ f, (s.calls f).pc.waits = true → (t.procs (s.calls f).child).phase ≠ .running →
      (s.procs (s.calls f).child).phase ≠ .running ∨ t.pending = true) : Told t := by
  constructor
  · intro f hf
    rw [hev]
    rw [hcalls f hf] at hf
    exact h.listed f hf
  · intro f hf hmem hp
    have heq := hcalls f
      (by cases hpc : (t.calls f).pc <;> simp_all [CallPc.waits, CallPc.listening])
    rw [heq] at hf hp
    rcases hphase f hf hp with hp | hp
    · exact (h.told f hf (hev ▸ hmem) hp).imp hpending hthread
    · exact .inl hp

/-- A step that does not start the process `c` again starts none. -/
theorem ended_of_update {p : Proc} {d : Nat}
    (hd : (Function.update s.procs c p d).phase ≠ .running)
    (hp : p.phase ≠ .running → (s.procs c).phase ≠ .running) : (s.procs d).phase ≠ .running := by
  rcases eq_or_ne d c with rfl | hne
  · rw [Function.update_self] at hd
    exact hp hd
  · rwa [Function.update_of_ne hne] at hd

/-- `try_wait` gives a status only after the end. -/
theorem Phase.ended {p : Phase} {status : Nat} (hp : p = .exited status ∨ p = .reaped status) :
    p ≠ .running := by
  rcases hp with rfl | rfl <;> nofun

/-- One call moves on, and the list of listeners with it. -/
theorem Told.setCall {pc : CallPc} (h : Told s)
    (hcalls : t.calls = Function.update s.calls f { s.calls f with pc })
    (hpending : t.pending = s.pending) (hthread : t.thread = s.thread)
    (hphase : ∀ c, (t.procs c).phase ≠ .running → (s.procs c).phase ≠ .running)
    (hkeys : ∀ g, g ≠ f → g ∈ s.sigchld.map Prod.fst → g ∈ t.sigchld.map Prod.fst)
    (hfalse : ∀ g, g ≠ f → (g, false) ∈ t.sigchld → (g, false) ∈ s.sigchld)
    (hself : pc.listening = true → f ∈ t.sigchld.map Prod.fst)
    (hwaits : pc.waits = true → (f, false) ∈ t.sigchld →
      (s.procs (s.calls f).child).phase ≠ .running → s.pending = true ∨ s.thread = .notify) :
    Told t := by
  constructor
  · intro g hg
    rw [hcalls] at hg
    rcases eq_or_ne g f with rfl | hne
    · rw [Function.update_self] at hg
      exact hself hg
    · rw [Function.update_of_ne hne] at hg
      exact hkeys g hne (h.listed g hg)
  · intro g hg hmem hp
    rw [hpending, hthread]
    rw [hcalls] at hg hp
    rcases eq_or_ne g f with rfl | hne
    · rw [Function.update_self] at hg hp
      exact hwaits hg hmem (hphase _ hp)
    · rw [Function.update_of_ne hne] at hg hp
      exact h.told g hg (hfalse g hne hmem) (hphase _ hp)

theorem mem_keys_remove {e : Event} {g : Nat} (hne : g ≠ f) (h : g ∈ e.map Prod.fst) :
    g ∈ (e.remove f).map Prod.fst := by
  rw [Event.map_fst_remove]
  simpa [hne] using h

theorem mem_keys_drop {e : Event} {g : Nat} (hne : g ≠ f) (h : g ∈ e.map Prod.fst) :
    g ∈ (e.drop f).map Prod.fst := by
  rw [Event.map_fst_drop]
  simpa [hne] using h

theorem told_checkStatus {listening : Bool} (h : Told s)
    (hl : (s.calls f).pc.listening = listening) : Told (s.checkStatus f listening) := by
  rcases checkStatus_cases s f listening with ⟨hp, hs⟩ | ⟨status, hp, hs⟩ <;> rw [hs]
  · refine h.setCall rfl rfl rfl (fun _ => id) (fun _ _ => id) (fun _ _ => id) ?_ ?_
    · cases listening
      · nofun
      · exact fun _ => h.listed f hl
    · exact fun _ _ hne => absurd hp hne
  · refine h.setCall rfl rfl rfl (fun _ hd => ended_of_update hd fun _ => Phase.ended hp) ?_ ?_
      nofun nofun
    · intro g hne hg
      cases listening
      · exact hg
      · exact mem_keys_drop hne hg
    · intro g hne hg
      cases listening
      · exact hg
      · exact (Event.drop_covered hg).1

theorem told_poll (h : Told s) (ht : s.poll f = some t) : Told t := by
  unfold State.poll at ht
  cases hpc : (s.calls f).pc <;> simp only [hpc] at ht
  case free | done | dropped => cases ht
  case fresh =>
    cases ht
    exact told_checkStatus h (by simp [hpc, CallPc.listening])
  case tryWait listening =>
    cases ht
    exact told_checkStatus h (by cases listening <;> simp [hpc, CallPc.listening])
  case listen =>
    cases ht
    refine h.setCall rfl rfl rfl (fun _ => id) ?_ ?_ ?_ nofun <;>
      simp +contextual [State.setPc, Event.listen]
  case await | asleep =>
    have hlisted := h.listed f (by simp [hpc, CallPc.listening])
    have htold := h.told f (by simp [hpc, CallPc.waits])
    split at ht <;> cases ht
    · exact h.setCall rfl rfl rfl (fun _ => id) (fun g hne => mem_keys_remove hne)
        (fun g _ hg => (Event.mem_remove.mp hg).1) nofun nofun
    · exact h.setCall rfl rfl rfl (fun _ => id) (fun _ _ => id) (fun _ _ => id)
        (fun _ => hlisted) fun _ => htold

theorem told_process (h : Told s) (ht : s.process = some t) : Told t := by
  unfold State.process at ht
  cases hth : s.thread <;> simp only [hth] at ht
  case absent => cases ht
  case wait =>
    split at ht <;> cases ht
    exact ⟨h.listed, fun _ _ _ _ => .inr rfl⟩
  case notify =>
    cases ht
    refine ⟨fun f hf => ?_, fun f _ hmem => absurd hmem (Event.not_mem_notifyAll f)⟩
    change f ∈ s.sigchld.notifyAll.map Prod.fst
    rw [Event.map_fst_notifyAll]
    exact h.listed f hf
  case lock =>
    split at ht <;> cases ht
    exact h.frame (fun _ _ => rfl) rfl id (by simp [hth]) fun _ _ => .inl
  case scan i =>
    split at ht
    · cases ht
      exact h.frame (fun _ _ => rfl) rfl id (by simp [hth]) fun _ _ => .inl
    · rename_i c _
      rcases (s.procs c).phase.tryWait_cases with ⟨hp, hw⟩ | ⟨status, hp, hw⟩ <;>
        rw [hw] at ht <;> cases ht
      · exact h.frame (fun _ _ => rfl) rfl id (by simp [hth]) fun _ _ => .inl
      · exact h.frame (fun _ _ => rfl) rfl id (by simp [hth])
          fun f _ hf => .inl (ended_of_update hf fun _ => Phase.ended hp)

theorem dropGuard_frame (ht : s.dropGuard c = some t) :
    t.calls = s.calls ∧ t.sigchld = s.sigchld ∧ t.pending = s.pending ∧ t.thread = s.thread ∧
      ∀ c, (t.procs c).phase ≠ .running → (s.procs c).phase ≠ .running := by
  unfold State.dropGuard at ht
  cases hg : (s.procs c).guard <;> simp only [hg, reduceCtorEq] at ht
  case live | dropLock =>
    split at ht <;> cases ht
    exact ⟨rfl, rfl, rfl, rfl, fun _ hd => ended_of_update hd id⟩
  case dropWait =>
    rcases (s.procs c).phase.tryWait_cases with ⟨hp, hw⟩ | ⟨status, hp, hw⟩ <;>
      rw [hw] at ht <;> cases ht
    · exact ⟨rfl, rfl, rfl, rfl, fun _ hd => ended_of_update hd id⟩
    · refine ⟨rfl, rfl, rfl, rfl, fun d hd => ?_⟩
      have hset : ((s.setPhase c (.reaped status)).procs d).phase ≠ .running := ended_of_update hd id
      exact ended_of_update hset fun _ => Phase.ended hp
  case dropPush =>
    cases ht
    exact ⟨rfl, rfl, rfl, rfl, fun _ hd => ended_of_update hd id⟩

/-- The steps that leave listeners and thread alone; a process that ends marks the signal
if anybody has the guard. -/
theorem told_step (h : Told s) (hg : Guarded s) (ht : step s a = some t) : Told t := by
  cases a with
  | poll => exact told_poll h ht
  | process => exact told_process h ht
  | dropCall f =>
    simp only [step, State.dropCall] at ht
    split at ht <;> cases ht
    · exact h.setCall rfl rfl rfl (fun _ => id) (fun _ _ => id) (fun _ _ => id) nofun nofun
    · exact h.setCall rfl rfl rfl (fun _ => id) (fun g hne => mem_keys_drop hne)
        (fun g _ hm => (Event.drop_covered hm).1) nofun nofun
  | spawn reapOnDrop =>
    cases ht
    exact h.frame (fun _ _ => rfl) rfl id id
      fun f _ hf => .inl (ended_of_update hf fun hp => absurd rfl hp)
  | status c =>
    simp only [step] at ht
    split at ht <;> cases ht
    refine h.frame (fun f hf => Function.update_of_ne ?_ _ _) rfl id id fun _ _ => .inl
    rintro rfl
    simp [State.status, CallPc.listening] at hf
  | exit c status =>
    simp only [step] at ht
    split at ht <;> cases ht
    refine h.frame (fun _ _ => rfl) rfl (by simp +contextual [State.exit]) id fun f hf => ?_
    have hheld : (s.calls f).holds (s.calls f).child = true := by
      cases hpc : (s.calls f).pc <;> simp_all [CallPc.waits, Call.holds]
    have hhandler := hg.handler (s.calls f).child (by simp [hg.held f _ hheld, GuardPc.installed])
    simp [State.exit, hhandler]
  | dropGuard c =>
    obtain ⟨hcalls, hev, hpending, hthread, hphase⟩ := dropGuard_frame ht
    exact h.frame (fun _ _ => by rw [hcalls]) hev (by simp [hpending]) (by simp [hthread])
      fun _ _ hp => .inl (hphase _ hp)
  | signal =>
    simp only [step] at ht
    split at ht <;> cases ht
    exact h.frame (fun _ _ => rfl) rfl (fun _ => rfl) id fun _ _ => .inl
  | forceZombies c =>
    simp only [step] at ht
    split at ht <;> cases ht
    exact h.frame (fun _ _ => rfl) rfl id (by simp +contextual)
      fun f _ hf => .inl (ended_of_update hf id)
  | wrapFails c | forceSignals c | dropChild c =>
    simp only [step] at ht
    split at ht <;> cases ht
    exact h.frame (fun _ _ => rfl) rfl id id fun f _ hf => .inl (ended_of_update hf id)
  | tryStatus c =>
    simp only [step] at ht
    split at ht <;> cases ht
    refine h.frame (fun _ _ => rfl) rfl id id fun f _ hf => .inl (ended_of_update hf ?_)
    rcases (s.procs c).phase.tryWait_cases with ⟨hp, hw⟩ | ⟨status, hp, hw⟩
    · simp [hw]
    · exact fun _ => Phase.ended hp

end Listening

/-! ## Reaping -/

/-- The thread will go through all of `ZOMBIES`. -/
def State.alerted (s : State) : Prop := s.pending = true ∨ s.thread = .notify ∨ s.thread = .lock

/-- The guard is neither at `ZOMBIES` nor gone. -/
def GuardPc.before : GuardPc → Bool
  | .dropWait | .dropPush | .gone => false
  | _ => true

structure Reaping (s : State) : Prop where
  locker : ∀ c, s.lock = some (.guard c) ↔
    (s.procs c).guard = .dropWait ∨ (s.procs c).guard = .dropPush
  scanner : s.lock = some .thread ↔ ∃ i, s.thread = .scan i
  gone : ∀ c ∈ s.zombies, (s.procs c).guard = .gone
  unreaped : ∀ c, c ∈ s.zombies ∨ (s.procs c).guard = .dropPush →
    ∀ status, (s.procs c).phase ≠ .reaped status
  nodup : s.zombies.Nodup
  pushed : ∀ c, (s.procs c).guard = .dropPush → (s.procs c).phase ≠ .running → s.alerted
  noticed : ∀ c ∈ s.zombies, (s.procs c).phase ≠ .running →
    s.alerted ∨ ∃ i, s.thread = .scan i ∧ c ∈ s.zombies.drop i
  kept : ∀ c, (s.procs c).guard = .gone → (s.procs c).reapOnDrop = true →
    (∃ status, (s.procs c).phase = .reaped status) ∨ c ∈ s.zombies

section Zombies

variable {s t : State} {a : Act} {f c : Nat}

/-- What `Reaping` says of one process. -/
structure Settled (s : State) (c : Nat) : Prop where
  locker : s.lock = some (.guard c) ↔
    (s.procs c).guard = .dropWait ∨ (s.procs c).guard = .dropPush
  gone : c ∈ s.zombies → (s.procs c).guard = .gone
  unreaped : c ∈ s.zombies ∨ (s.procs c).guard = .dropPush →
    ∀ status, (s.procs c).phase ≠ .reaped status
  pushed : (s.procs c).guard = .dropPush → (s.procs c).phase ≠ .running → s.alerted
  noticed : c ∈ s.zombies → (s.procs c).phase ≠ .running →
    s.alerted ∨ ∃ i, s.thread = .scan i ∧ c ∈ s.zombies.drop i
  kept : (s.procs c).guard = .gone → (s.procs c).reapOnDrop = true →
    (∃ status, (s.procs c).phase = .reaped status) ∨ c ∈ s.zombies

theorem Reaping.settled (h : Reaping s) (c : Nat) : Settled s c :=
  ⟨h.locker c, h.gone c, h.unreaped c, h.pushed c, h.noticed c, h.kept c⟩

theorem Settled.reaping (h : ∀ c, Settled s c)
    (hscanner : s.lock = some .thread ↔ ∃ i, s.thread = .scan i) (hnodup : s.zombies.Nodup) :
    Reaping s where
  locker c := (h c).locker
  scanner := hscanner
  gone c := (h c).gone
  unreaped c := (h c).unreaped
  nodup := hnodup
  pushed c := (h c).pushed
  noticed c := (h c).noticed
  kept c := (h c).kept

/-- The process stays, and the thread does not pass it by. -/
theorem Settled.frame (h : Settled s c) (hproc : t.procs c = s.procs c)
    (hmem : c ∈ t.zombies ↔ c ∈ s.zombies)
    (hlock : t.lock = some (.guard c) ↔ s.lock = some (.guard c))
    (halert : s.alerted → t.alerted)
    (hscan : ∀ i, s.thread = .scan i → c ∈ s.zombies.drop i → (s.procs c).phase ≠ .running →
      t.alerted ∨ ∃ j, t.thread = .scan j ∧ c ∈ t.zombies.drop j) : Settled t c := by
  constructor <;> rw [hproc]
  · exact hlock.trans h.locker
  · exact fun hc => h.gone (hmem.mp hc)
  · exact fun hc => h.unreaped (hc.imp_left hmem.mp)
  · exact fun hg hp => halert (h.pushed hg hp)
  · intro hc hp
    rcases h.noticed (hmem.mp hc) hp with ha | ⟨i, hi, hdrop⟩
    · exact .inl (halert ha)
    · exact hscan i hi hdrop hp
  · exact fun hg hr => (h.kept hg hr).imp_right hmem.mpr

/-- The guard is not at `ZOMBIES`, and the process is not in it. -/
theorem Settled.absent (hmem : c ∉ t.zombies) (hlock : t.lock ≠ some (.guard c))
    (hwait : (t.procs c).guard ≠ .dropWait) (hpush : (t.procs c).guard ≠ .dropPush)
    (hgone : (t.procs c).guard = .gone → (t.procs c).reapOnDrop = true →
      ∃ status, (t.procs c).phase = .reaped status) : Settled t c where
  locker := iff_of_false hlock (not_or_intro hwait hpush)
  gone hc := absurd hc hmem
  unreaped hc := absurd hc (not_or_intro hmem hpush)
  pushed hg := absurd hg hpush
  noticed hc := absurd hc hmem
  kept hg hr := .inl (hgone hg hr)

/-- Only the process `c` moves; the thread and `ZOMBIES` stay. -/
theorem Reaping.settle (h : Reaping s) (hself : Settled t c)
    (hother : ∀ d, d ≠ c → t.procs d = s.procs d) (hzombies : t.zombies = s.zombies)
    (hthread : ∀ i, t.thread = .scan i ↔ s.thread = .scan i) (halert : s.alerted → t.alerted)
    (hlock : ∀ d, d ≠ c → (t.lock = some (.guard d) ↔ s.lock = some (.guard d)))
    (hscanner : t.lock = some .thread ↔ s.lock = some .thread) : Reaping t := by
  refine Settled.reaping (fun d => ?_) ?_ (hzombies ▸ h.nodup)
  · rcases eq_or_ne d c with rfl | hne
    · exact hself
    · refine (h.settled d).frame (hother d hne) (by rw [hzombies]) (hlock d hne) halert ?_
      exact fun i hi hd _ => .inr ⟨i, (hthread i).mpr hi, hzombies ▸ hd⟩
  · rw [hscanner, h.scanner]
    exact exists_congr fun i => (hthread i).symm

theorem Reaping.not_mem (h : Reaping s) (hc : (s.procs c).guard ≠ .gone) : c ∉ s.zombies :=
  fun hmem => hc (h.gone c hmem)

/-- A process moves on whose guard has not come to `ZOMBIES` yet. -/
theorem Reaping.setProc {p : Proc} (h : Reaping s) (hprocs : t.procs = Function.update s.procs c p)
    (hthread : ∀ i, t.thread = .scan i ↔ s.thread = .scan i) (halert : s.alerted → t.alerted)
    (hzombies : t.zombies = s.zombies) (hlock : t.lock = s.lock)
    (hbefore : (s.procs c).guard.before = true)
    (hafter : p.guard.before = true ∨ (p.guard = .gone ∧ p.reapOnDrop = false)) : Reaping t := by
  have hself : t.procs c = p := by rw [hprocs, Function.update_self]
  have hmem : c ∉ s.zombies := h.not_mem fun hg => by simp [hg, GuardPc.before] at hbefore
  have hfree : s.lock ≠ some (.guard c) := fun hl => by
    rcases (h.locker c).mp hl with hg | hg <;> simp [hg, GuardPc.before] at hbefore
  refine h.settle (c := c) (.absent (hzombies ▸ hmem) (hlock ▸ hfree) ?_ ?_ ?_) ?_ hzombies hthread
    halert (fun _ _ => by rw [hlock]) (by rw [hlock])
  · rw [hself]
    rintro hg
    simp [hg, GuardPc.before] at hafter
  · rw [hself]
    rintro hg
    simp [hg, GuardPc.before] at hafter
  · rw [hself]
    intro hg hr
    simp [hg, hr, GuardPc.before] at hafter
  · intro d hne
    rw [hprocs, Function.update_of_ne hne]

theorem Reaping.frame (h : Reaping s) (hprocs : t.procs = s.procs)
    (hpending : s.pending = true → t.pending = true) (hthread : t.thread = s.thread)
    (hzombies : t.zombies = s.zombies) (hlock : t.lock = s.lock) : Reaping t := by
  have halert : s.alerted → t.alerted := by
    rw [State.alerted, State.alerted, hthread]
    exact Or.imp_left hpending
  refine Settled.reaping (fun c => ?_) (by rw [hlock, hthread]; exact h.scanner) (hzombies ▸ h.nodup)
  refine (h.settled c).frame (by rw [hprocs]) (by rw [hzombies]) (by rw [hlock]) halert ?_
  exact fun i hi hc _ => .inr ⟨i, hthread.trans hi, hzombies ▸ hc⟩

theorem reaping_checkStatus {listening : Bool} (h : Reaping s)
    (hg : (s.procs (s.calls f).child).guard = .live) : Reaping (s.checkStatus f listening) := by
  rcases checkStatus_cases s f listening with ⟨-, hs⟩ | ⟨status, -, hs⟩ <;> rw [hs]
  · exact h.frame rfl id rfl rfl rfl
  · exact (h.setProc (t := s.setPhase _ _) rfl (fun _ => .rfl) id rfl rfl
      (by simp [hg, GuardPc.before]) (.inl (by simp [hg, GuardPc.before]))).frame rfl id rfl rfl rfl

theorem reaping_poll (h : Reaping s) (hg : Guarded s) (ht : s.poll f = some t) : Reaping t := by
  unfold State.poll at ht
  cases hpc : (s.calls f).pc <;> simp only [hpc] at ht
  case free | done | dropped => cases ht
  all_goals have hlive := hg.held f (s.calls f).child (by simp [Call.holds, hpc])
  case fresh | tryWait =>
    cases ht
    exact reaping_checkStatus h hlive
  case listen =>
    cases ht
    exact h.frame rfl id rfl rfl rfl
  case await | asleep =>
    split at ht <;> cases ht
    all_goals exact h.frame rfl id rfl rfl rfl

theorem reaping_dropGuard (h : Reaping s) (ht : s.dropGuard c = some t) : Reaping t := by
  unfold State.dropGuard at ht
  have hlocker := h.locker c
  cases hg : (s.procs c).guard <;> simp only [hg, reduceCtorEq] at ht
  case live =>
    split at ht <;> cases ht
    refine h.setProc rfl (fun _ => .rfl) id rfl rfl (by simp [hg, GuardPc.before]) ?_
    cases hr : (s.procs c).reapOnDrop <;> simp [GuardPc.before]
  case dropLock =>
    split at ht <;> cases ht
    rename_i hlock
    have hmem := h.not_mem (c := c) (by simp [hg])
    refine h.settle (c := c) ⟨?_, fun hc => absurd hc hmem, ?_, ?_, fun hc => absurd hc hmem, ?_⟩
      (fun d hne => Function.update_of_ne hne _ _) rfl (fun _ => .rfl) id ?_ ?_
    · simp [State.setGuard]
    · simp [State.setGuard, hmem]
    · simp [State.setGuard]
    · simp [State.setGuard]
    · intro d hne
      simp [hlock, hne.symm]
    · simp [hlock]
  case dropWait =>
    have hlock : s.lock = some (.guard c) := hlocker.mpr (.inl hg)
    have hmem := h.not_mem (c := c) (by simp [hg])
    rcases (s.procs c).phase.tryWait_cases with ⟨hp, hw⟩ | ⟨status, hp, hw⟩ <;>
      rw [hw] at ht <;> cases ht
    · refine h.settle (c := c) ⟨?_, fun hc => absurd hc hmem, ?_, ?_, fun hc => absurd hc hmem, ?_⟩
        (fun d hne => Function.update_of_ne hne _ _) rfl (fun _ => .rfl) id (fun _ _ => .rfl) .rfl
      · simp [State.setGuard, hlock]
      · simp [State.setGuard, hp]
      · simp [State.setGuard, hp]
      · simp [State.setGuard]
    · refine h.settle (c := c) (.absent hmem nofun ?_ ?_ ?_) ?_ rfl (fun _ => .rfl) id ?_ ?_
      · simp [State.setGuard]
      · simp [State.setGuard]
      · simp [State.setGuard, State.setPhase]
      · intro d hne
        simp [State.setGuard, State.setPhase, Function.update_of_ne hne]
      · intro d hne
        simp [hlock, hne.symm]
      · simp [hlock]
  case dropPush =>
    cases ht
    have hlock : s.lock = some (.guard c) := hlocker.mpr (.inr hg)
    have hmem := h.not_mem (c := c) (by simp [hg])
    have hscan : ∀ i, s.thread ≠ .scan i := fun i hi => by
      cases hlock.symm.trans (h.scanner.mpr ⟨i, hi⟩)
    refine Settled.reaping (fun d => ?_) ⟨nofun, fun ⟨i, hi⟩ => absurd hi (hscan i)⟩
      (List.nodup_append.mpr ⟨h.nodup, List.nodup_singleton c, ?_⟩)
    · rcases eq_or_ne d c with rfl | hne
      · refine ⟨by simp [State.setGuard], fun _ => by simp [State.setGuard], fun _ => ?_, ?_, ?_, ?_⟩
        · simpa [State.setGuard] using h.unreaped d (.inr hg)
        · simp [State.setGuard]
        · exact fun _ hp => .inl (h.pushed d hg (by simpa [State.setGuard] using hp))
        · simp [State.setGuard]
      · refine (h.settled d).frame (Function.update_of_ne hne _ _) (by simp [hne]) ?_
          id fun i hi => absurd hi (hscan i)
        simp [hlock, hne.symm]
    · rintro x hx y hy rfl
      exact hmem (List.mem_singleton.mp hy ▸ hx)

/-- What the thread does at the index `i` of its scan. -/
theorem reaping_scan {i : Nat} (h : Reaping s) (hth : s.thread = .scan i)
    (ht : s.process = some t) : Reaping t := by
  simp only [State.process, hth] at ht
  have hlock : s.lock = some .thread := h.scanner.mpr ⟨i, hth⟩
  have halert : s.alerted → s.pending = true := by simp [State.alerted, hth]
  have hindex : ∀ j, s.thread = .scan j → j = i := fun j hj => by
    cases hth.symm.trans hj
    rfl
  split at ht
  · -- the end of the list: the lock is given back
    rename_i hend
    cases ht
    have hdrop : s.zombies.drop i = [] :=
      List.drop_eq_nil_of_le (List.getElem?_eq_none_iff.mp hend)
    refine Settled.reaping (fun c => ?_) (by simp) h.nodup
    refine (h.settled c).frame rfl .rfl (by simp [hlock]) (fun ha => .inl (halert ha)) ?_
    rintro j hj hc -
    rw [hindex j hj, hdrop] at hc
    cases hc
  · rename_i c hc
    obtain ⟨hi, rfl⟩ := List.getElem?_eq_some_iff.mp hc
    have hcons : s.zombies.drop i = s.zombies[i] :: s.zombies.drop (i + 1) :=
      List.drop_eq_getElem_cons hi
    rcases (s.procs s.zombies[i]).phase.tryWait_cases with ⟨hp, hw⟩ | ⟨status, hp, hw⟩ <;>
      rw [hw] at ht <;> cases ht
    · -- it runs, and is left where it is
      refine Settled.reaping (fun c => ?_) (by simp [hlock]) h.nodup
      refine (h.settled c).frame rfl .rfl .rfl (fun ha => .inl (halert ha)) ?_
      intro j hj hc hne
      rw [hindex j hj, hcons, List.mem_cons] at hc
      refine .inr ⟨i + 1, rfl, hc.resolve_left ?_⟩
      rintro rfl
      exact hne hp
    · -- it has ended: the last one takes its place
      have hperm := swapRemove_perm hi
      obtain ⟨hout, hnodup⟩ := List.nodup_cons.mp (hperm.nodup_iff.mpr h.nodup)
      have hgone := h.gone _ (List.getElem_mem hi)
      refine Settled.reaping (fun d => ?_) h.scanner hnodup
      rcases eq_or_ne d s.zombies[i] with rfl | hne
      · refine .absent hout (by simp [State.setPhase, hlock]) ?_ ?_ fun _ _ => ⟨status, ?_⟩ <;>
          simp [State.setPhase, hgone]
      · refine (h.settled d).frame (Function.update_of_ne hne _ _) ?_ .rfl id ?_
        · rw [← hperm.mem_iff, List.mem_cons, or_iff_right hne]
        · intro j hj hd _
          rw [hindex j hj] at hd
          exact .inr ⟨i, hth, mem_drop_swapRemove hi hd hne⟩

theorem reaping_process (h : Reaping s) (ht : s.process = some t) : Reaping t := by
  cases hth : s.thread with
  | scan i => exact reaping_scan h hth ht
  | absent => simp [State.process, hth] at ht
  | wait =>
    simp only [State.process, hth] at ht
    split at ht <;> cases ht
    refine Settled.reaping (fun c => ?_) (by simpa [hth] using h.scanner) h.nodup
    exact (h.settled c).frame rfl .rfl .rfl (fun _ => .inr (.inl rfl)) (by simp [hth])
  | notify =>
    simp only [State.process, hth] at ht
    cases ht
    refine Settled.reaping (fun c => ?_) (by simpa [hth] using h.scanner) h.nodup
    exact (h.settled c).frame rfl .rfl .rfl (fun _ => .inr (.inr rfl)) (by simp [hth])
  | lock =>
    simp only [State.process, hth] at ht
    split at ht <;> cases ht
    rename_i hlock
    have hfree : ∀ c, (s.procs c).guard ≠ .dropWait ∧ (s.procs c).guard ≠ .dropPush := fun c =>
      not_or.mp fun hg => by cases hlock.symm.trans ((h.locker c).mpr hg)
    refine Settled.reaping (fun c => ?_) (by simp) h.nodup
    refine ⟨iff_of_false nofun (not_or.mpr (hfree c)), h.gone c, h.unreaped c, ?_, ?_, h.kept c⟩
    · exact fun hg => absurd hg (hfree c).2
    · exact fun hc _ => .inr ⟨0, rfl, hc⟩

theorem reaping_step (h : Reaping s) (hg : Guarded s) (ht : step s a = some t) : Reaping t := by
  cases a with
  | poll => exact reaping_poll h hg ht
  | dropGuard => exact reaping_dropGuard h ht
  | process => exact reaping_process h ht
  | dropCall f =>
    simp only [step, State.dropCall] at ht
    split at ht <;> cases ht <;> exact h.frame rfl id rfl rfl rfl
  | spawn reapOnDrop =>
    cases ht
    exact h.setProc rfl (fun _ => .rfl) id rfl rfl (by simp [hg.unspawned, GuardPc.before])
      (.inl rfl)
  | status c =>
    simp only [step] at ht
    split at ht <;> cases ht
    exact h.frame rfl id rfl rfl rfl
  | signal =>
    simp only [step] at ht
    split at ht <;> cases ht
    exact h.frame rfl (fun _ => rfl) rfl rfl rfl
  | exit c status =>
    simp only [step] at ht
    split at ht <;> cases ht
    rename_i hc
    refine h.settle (c := c) ?_ (fun d hne => Function.update_of_ne hne _ _) rfl (fun _ => .rfl) ?_
      (fun _ _ => .rfl) .rfl
    · -- whoever waits for the end is told by the signal
      have halert : (s.procs c).guard.installed = true → (s.exit c status).alerted := fun hi =>
        .inl (by simp [State.exit, hg.handler c hi])
      refine ⟨?_, fun hz => ?_, ?_, fun hpush _ => ?_, fun hz _ => .inl ?_, fun hgone hr => .inr ?_⟩
      · simpa [State.exit, State.setPhase] using h.locker c
      · simpa [State.exit, State.setPhase] using h.gone c hz
      · simp [State.exit, State.setPhase]
      · have hold : (s.procs c).guard = .dropPush := by
          simpa [State.exit, State.setPhase] using hpush
        exact halert (by rw [hold]; rfl)
      · exact halert (by rw [h.gone c hz]; rfl)
      · refine (h.kept c ?_ ?_).resolve_left ?_
        · simpa [State.exit, State.setPhase] using hgone
        · simpa [State.exit, State.setPhase] using hr
        · simp [hc.2]
    · exact Or.imp_left fun hp => by simp [State.exit, hp]
  | forceZombies c =>
    simp only [step] at ht
    split at ht <;> cases ht
    rename_i hc
    refine h.setProc rfl (fun i => ?_) (Or.imp_right ?_) rfl rfl (by simp [hc, GuardPc.before])
      (.inl rfl)
    · dsimp only
      split <;> simp [*]
    · rintro (hth | hth) <;> simp [hth]
  | wrapFails c | forceSignals c | tryStatus c | dropChild c =>
    simp only [step] at ht
    split at ht <;> cases ht
    rename_i hc
    exact h.setProc rfl (fun _ => .rfl) id rfl rfl (by simp [hc, GuardPc.before])
      (.inl (by simp [hc, GuardPc.before]))

end Zombies

/-! ## Whole runs -/

section Runs

variable {s t : State} {f c : Nat}

structure Inv (s : State) : Prop where
  guarded : Guarded s
  told : Told s
  reaping : Reaping s

theorem inv_new : Inv .new where
  guarded := by constructor <;> simp [State.new, GuardPc.installed, Call.holds]
  told := by constructor <;> simp [State.new, CallPc.listening]
  reaping := by constructor <;> simp [State.new]

theorem inv_of_reachable (hs : system.Reachable s) : Inv s :=
  System.Reachable.invariant (M := system) inv_new
    (fun _ _ _ h ht => ⟨guarded_step h.guarded h.reaping.gone ht, told_step h.told h.guarded ht,
      reaping_step h.reaping h.guarded ht⟩) hs

/-- A call that was told of the signal asks again, and gets the status. -/
theorem poll_told {status : Nat} (hpc : (s.calls f).pc = .asleep) (hmem : (f, true) ∈ s.sigchld)
    (hp : (s.procs (s.calls f).child).phase = .exited status ∨
      (s.procs (s.calls f).child).phase = .reaped status) :
    ∃ t, system.runFrom s [.poll f, .poll f] = some t ∧ (t.calls f).pc = .done status := by
  let told := { s with sigchld := s.sigchld.remove f }.setPc f (.tryWait false)
  have hfirst : step s (.poll f) = some told := by
    simp only [step, State.poll, hpc, if_pos hmem]
    rfl
  have hsecond : step told (.poll f) = some (told.checkStatus f false) := by
    simp [step, State.poll, told, State.setPc]
  refine ⟨told.checkStatus f false, ?_, ?_⟩
  · simp [System.runFrom, system, hfirst, hsecond]
  · have hphase : told.procs (told.calls f).child = s.procs (s.calls f).child := by
      simp [told, State.setPc]
    rcases checkStatus_cases told f false with ⟨hrun, -⟩ | ⟨status', hp', heq⟩
    · rw [hphase] at hrun
      rcases hp with hp | hp <;> cases hrun.symm.trans hp
    · rw [hphase] at hp'
      have hsame : status' = status := by
        rcases hp with hp | hp <;> rcases hp' with hp' | hp' <;> cases hp.symm.trans hp' <;> rfl
      rw [heq, hsame]
      simp [State.setPc]

/-- A call of `status` that has returned has the status of its process. A call that sleeps
although its process has ended was told of the signal, and then its next poll returns the
status, or the thread is about to tell it. -/
theorem status_misses_no_exit (hs : system.Reachable s) :
    (∀ f status, (s.calls f).pc = .done status →
      (s.procs (s.calls f).child).phase = .reaped status) ∧
    ∀ f status, (s.calls f).pc = .asleep →
      (s.procs (s.calls f).child).phase = .exited status ∨
        (s.procs (s.calls f).child).phase = .reaped status →
      s.pending = true ∨ s.thread = .notify ∨ (f, true) ∈ s.sigchld ∧
        ∃ t, system.runFrom s [.poll f, .poll f] = some t ∧ (t.calls f).pc = .done status := by
  have h := inv_of_reachable hs
  refine ⟨fun f status hpc => (h.guarded.status f status hpc).1, fun f status hpc hp => ?_⟩
  obtain ⟨⟨g, b⟩, hmem, rfl⟩ := List.mem_map.mp (h.told.listed f (by simp [hpc, CallPc.listening]))
  cases b with
  | true => exact .inr (.inr ⟨hmem, poll_told hpc hmem hp⟩)
  | false =>
    have hne : (s.procs (s.calls g).child).phase ≠ .running := by
      rcases hp with hp | hp <;> simp [hp]
    exact (h.told.told g (by simp [hpc, CallPc.waits]) hmem hne).imp id .inl

/-- A call that sleeps while its process ends. -/
def asleepAtExit : List Act :=
  [.spawn true, .forceSignals 0, .forceZombies 0, .status 0, .poll 0, .poll 0, .poll 0, .poll 0,
    .exit 0 7]

theorem status_misses_no_exit_asleepAtExit :
    ∃ s, system.Reachable s ∧ (s.calls 0).pc = .asleep ∧
      (s.pending = true ∨ s.thread = .notify ∨ (0, true) ∈ s.sigchld ∧
        ∃ t, system.runFrom s [.poll 0, .poll 0] = some t ∧ (t.calls 0).pc = .done 7) := by
  obtain ⟨s, -, hs, hpc, hp⟩ := System.exists_of_run (M := system)
    (P := fun s => (s.calls 0).pc = .asleep ∧ (s.procs (s.calls 0).child).phase = .exited 7)
    asleepAtExit (by decide)
  exact ⟨s, hs, hpc, (status_misses_no_exit hs).2 0 7 hpc (.inl hp)⟩

/-- A process whose guard was dropped, and is to be reaped, was waited for or is in `ZOMBIES`,
once. There the thread will still come to it, if it has ended. -/
theorem zombies_kept (hs : system.Reachable s) :
    s.zombies.Nodup ∧
    (∀ c, (s.procs c).guard = .gone → (s.procs c).reapOnDrop = true →
      (∃ status, (s.procs c).phase = .reaped status) ∨ c ∈ s.zombies) ∧
    (∀ c ∈ s.zombies, (s.procs c).phase ≠ .running →
      s.alerted ∨ ∃ i, s.thread = .scan i ∧ c ∈ s.zombies.drop i) ∧
    (s.process = none → s.thread = .absent ∨ (s.thread = .wait ∧ s.pending = false) ∨
      ∃ c t, s.lock = some (.guard c) ∧ s.dropGuard c = some t) := by
  have h := (inv_of_reachable hs).reaping
  refine ⟨h.nodup, h.kept, h.noticed, fun hstuck => ?_⟩
  cases hth : s.thread <;> simp only [State.process, hth] at hstuck
  case absent => exact .inl rfl
  case wait =>
    split at hstuck
    · cases hstuck
    · exact .inr (.inl ⟨rfl, by simpa using ‹¬s.pending = true›⟩)
  case notify => cases hstuck
  case lock =>
    split at hstuck
    · cases hstuck
    · rename_i hlock
      obtain ⟨holder, hholder⟩ := Option.ne_none_iff_exists'.mp hlock
      cases holder with
      | thread =>
        obtain ⟨i, hi⟩ := h.scanner.mp hholder
        cases hth.symm.trans hi
      | guard c =>
        refine .inr (.inr ⟨c, ?_⟩)
        rcases (h.locker c).mp hholder with hg | hg <;> simp only [State.dropGuard, hg]
        · rcases (s.procs c).phase.tryWait_cases with ⟨-, hw⟩ | ⟨status, -, hw⟩ <;> rw [hw] <;>
            exact ⟨_, hholder, rfl⟩
        · exact ⟨_, hholder, rfl⟩
  case scan i =>
    split at hstuck
    · cases hstuck
    · split at hstuck <;> cases hstuck

/-- A `Child` is dropped while its process runs, which ends later. -/
def endsAsZombie : List Act :=
  [.spawn true, .forceSignals 0, .forceZombies 0, .dropChild 0, .dropGuard 0, .dropGuard 0,
    .dropGuard 0, .dropGuard 0, .exit 0 7]

theorem zombies_kept_endsAsZombie :
    ∃ s, system.Reachable s ∧ s.zombies = [0] ∧
      (s.alerted ∨ ∃ i, s.thread = .scan i ∧ 0 ∈ s.zombies.drop i) := by
  obtain ⟨s, -, hs, hz, hp⟩ := System.exists_of_run (M := system)
    (P := fun s => s.zombies = [0] ∧ (s.procs 0).phase = .exited 7) endsAsZombie (by decide)
  exact ⟨s, hs, hz, (zombies_kept hs).2.2.1 0 (by simp [hz]) (by simp [hp])⟩

end Runs

/-! ## One pass of the thread -/

section Pass

variable {s : State} {c i : Nat}

def State.isRunning (s : State) (c : Nat) : Bool := decide ((s.procs c).phase = .running)

/-- The process after `try_wait`. -/
def Proc.waited (p : Proc) : Proc := { p with phase := p.phase.tryWait.2 }

theorem Proc.waited_of_running {p : Proc} (h : p.phase = .running) : p.waited = p := by
  cases p
  cases h
  rfl

theorem Proc.waited_waited (p : Proc) : p.waited.waited = p.waited := by
  cases p with
  | mk phase => cases phase <;> rfl

theorem Proc.waited_running (p : Proc) : p.waited.phase = .running ↔ p.phase = .running := by
  cases p with
  | mk phase => cases phase <;> simp [Proc.waited, Phase.tryWait]

theorem scan_running (hth : s.thread = .scan i) (hi : i < s.zombies.length)
    (hrun : s.isRunning s.zombies[i] = true) :
    step s .process = some { s with thread := .scan (i + 1) } := by
  have hp : (s.procs s.zombies[i]).phase = .running := of_decide_eq_true hrun
  simp only [step, State.process, hth, List.getElem?_eq_getElem hi, hp, Phase.tryWait]

theorem scan_ended (hth : s.thread = .scan i) (hi : i < s.zombies.length)
    (hrun : s.isRunning s.zombies[i] = false) :
    step s .process = some { s with
      procs := Function.update s.procs s.zombies[i] (s.procs s.zombies[i]).waited
      zombies := swapRemove s.zombies i } := by
  have hp : (s.procs s.zombies[i]).phase ≠ .running := of_decide_eq_false hrun
  rcases (s.procs s.zombies[i]).phase.tryWait_cases with ⟨hrun, -⟩ | ⟨status, -, hw⟩
  · exact absurd hrun hp
  · simp only [step, State.process, hth, List.getElem?_eq_getElem hi, hw, Proc.waited,
      State.setPhase]

/-- If nobody else moves, a pass leaves in `ZOMBIES` those that run, waits for the others, and
comes back to `wait_sigchld`. -/
theorem pass_reaps (s : State) (i : Nat) (hth : s.thread = .scan i) :
    ∃ n t, n ≤ s.zombies.length - i + 1 ∧ system.runFrom s (List.replicate n .process) = some t ∧
      t.thread = .wait ∧ t.lock = none ∧
      t.zombies.Perm (s.zombies.take i ++ (s.zombies.drop i).filter s.isRunning) ∧
      ∀ c, t.procs c = if c ∈ s.zombies.drop i then (s.procs c).waited else s.procs c := by
  induction hlen : s.zombies.length - i generalizing s i with
  | zero =>
    have hi : s.zombies.length ≤ i := Nat.le_of_sub_eq_zero hlen
    refine ⟨1, { s with lock := none, thread := .wait }, Nat.le_refl 1, ?_, rfl, rfl, ?_, ?_⟩
    · simp [System.runFrom, system, step, State.process, hth, List.getElem?_eq_none hi]
    · simp [List.drop_eq_nil_of_le hi, List.take_of_length_le hi]
    · simp [List.drop_eq_nil_of_le hi]
  | succ k ih =>
    have hi : i < s.zombies.length := by omega
    have hcons : s.zombies.drop i = s.zombies[i] :: s.zombies.drop (i + 1) :=
      List.drop_eq_getElem_cons hi
    cases hrun : s.isRunning s.zombies[i] with
    | true =>
      -- The index goes up.
      have hp : (s.procs s.zombies[i]).phase = .running := of_decide_eq_true hrun
      obtain ⟨n, t, hn, ht, hwait, hlock, hperm, hprocs⟩ :=
        ih { s with thread := .scan (i + 1) } (i + 1) rfl (by simp only; omega)
      dsimp only at hn hperm hprocs
      refine ⟨n + 1, t, by omega, ?_, hwait, hlock, hperm.trans (.of_eq ?_), fun c => ?_⟩
      · rw [List.replicate_succ]
        exact (congrArg (Option.bind · _) (scan_running hth hi hrun)).trans ht
      · rw [hcons, List.filter_cons_of_pos hrun, List.take_succ_eq_append_getElem hi,
          List.append_assoc]
        rfl
      · simp only [hprocs, hcons, List.mem_cons]
        rcases eq_or_ne c s.zombies[i] with rfl | hne
        · simp [Proc.waited_of_running hp]
        · simp only [hne, false_or]
    | false =>
      -- The last one takes its place.
      have hlen' : (swapRemove s.zombies i).length + 1 = s.zombies.length :=
        (swapRemove_perm hi).length_eq
      obtain ⟨n, t, hn, ht, hwait, hlock, hperm, hprocs⟩ :=
        ih { s with
          procs := Function.update s.procs s.zombies[i] (s.procs s.zombies[i]).waited
          zombies := swapRemove s.zombies i } i hth (by simp only; omega)
      dsimp only at hn hperm hprocs
      refine ⟨n + 1, t, by omega, ?_, hwait, hlock, hperm.trans ?_, fun c => ?_⟩
      · rw [List.replicate_succ]
        exact (congrArg (Option.bind · _) (scan_ended hth hi hrun)).trans ht
      · have hsame : State.isRunning { s with
            procs := Function.update s.procs s.zombies[i] (s.procs s.zombies[i]).waited
            zombies := swapRemove s.zombies i } = s.isRunning := by
          funext x
          simp only [State.isRunning, Function.update_apply]
          split <;> simp [Proc.waited_running, *]
        rw [hsame, hcons, List.filter_cons_of_neg (by simp [hrun]), take_swapRemove hi]
        exact ((drop_swapRemove_perm hi).filter _).append_left _
      · have hmem : c ∈ (swapRemove s.zombies i).drop i ↔ c ∈ s.zombies.drop (i + 1) :=
          (drop_swapRemove_perm hi).mem_iff
        simp only [hprocs, hcons, List.mem_cons, hmem]
        rcases eq_or_ne c s.zombies[i] with rfl | hne
        · simp [Proc.waited_waited]
        · simp only [hne, false_or, Function.update_of_ne hne]

/-- Of three processes in `ZOMBIES` the first and the last have ended. -/
theorem pass_reaps_twoOfThree :
    ∃ s n t, system.Reachable s ∧ s.thread = .scan 0 ∧ n ≤ 4 ∧
      system.runFrom s (List.replicate n .process) = some t ∧ t.zombies.Perm [1] := by
  obtain ⟨s, -, hs, hth, hz, hrun⟩ := System.exists_of_run (M := system)
    (P := fun s => s.thread = .scan 0 ∧ s.zombies = [0, 1, 2] ∧
      [0, 1, 2].filter s.isRunning = [1])
    ((List.range 3).flatMap (fun c => [.spawn true, .forceSignals c, .forceZombies c, .dropChild c,
      .dropGuard c, .dropGuard c, .dropGuard c, .dropGuard c]) ++
      [.exit 0 7, .exit 2 8, .process, .process, .process]) (by decide)
  obtain ⟨n, t, hn, ht, -, -, hperm, -⟩ := pass_reaps s 0 hth
  rw [hz] at hn hperm
  exact ⟨s, n, t, hs, hth, hn, ht, hperm.trans (.of_eq hrun)⟩

end Pass

end Cynthia.Process
