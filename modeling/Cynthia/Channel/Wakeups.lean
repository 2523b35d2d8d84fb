import Cynthia.Channel.Channel

/-! No operation on the channel sleeps through its wake-up. -/

namespace Cynthia.Channels

open Transition

variable {α : Type}

/-- The call awaits its listener. -/
def Pc.waits : Pc → Bool
  | .await | .suspended => true
  | _ => false

/-- The call can have a listener. -/
def Pc.listens : Pc → Bool
  | .listen | .done => false
  | _ => true

/-- Only calls of `send`, `recv` and `poll_next` get to these places. -/
def Pc.blocks : Pc → Bool
  | .listen | .await | .suspended => true
  | _ => false

def Kind.isSend : Kind α → Bool
  | .send _ => true
  | _ => false

def Kind.isRecv : Kind α → Bool
  | .recv => true
  | _ => false

def Kind.isNext : Kind α → Bool
  | .next => true
  | _ => false

/-- The call will try the queue and, if it takes a message, notify `recv_ops`; or
it has to notify `recv_ops` already. -/
def Call.owesRecv (capacity : Option Nat) (c : Call α) : Prop :=
  match c.kind, c.pc with
  | .recv, .attempt => True
  | .recv, .oweSend | .recv, .chain => capacity ≠ some 1
  | .send _, .oweRecv | .trySend _, .oweRecv => True
  | .close, .oweSend | .close, .oweRecv => True
  | _, _ => False

def Call.owesSend (capacity : Option Nat) (c : Call α) : Prop :=
  match c.kind, c.pc with
  | .send _, .attempt => True
  | .send _, .oweRecv | .send _, .oweStream | .send _, .chain => capacity ≠ some 1
  | .recv, .oweSend | .tryRecv, .oweSend | .next, .oweSend => True
  | .close, .oweSend => True
  | _, _ => False

/-- `close` has not notified `send_ops` yet. -/
def Call.closesSend (c : Call α) : Prop := c.kind = .close ∧ c.pc = .oweSend

def Call.closesRecv (c : Call α) : Prop := c.kind = .close ∧ (c.pc = .oweSend ∨ c.pc = .oweRecv)

/-- The call has to notify all of `stream_ops`. -/
def Call.owesStream (c : Call α) : Prop :=
  match c.kind, c.pc with
  | .send _, .oweRecv | .send _, .oweStream => True
  | .trySend _, .oweRecv | .trySend _, .oweStream => True
  | .close, .oweSend | .close, .oweRecv | .close, .oweStream => True
  | _, _ => False

/-- While `p` holds, one listener is notified or some call owes a notification. -/
def OneNotified (p : Prop) (e : Event) (owes : Call α → Prop) (calls : Nat → Call α) : Prop :=
  p → (∃ f, (f, false) ∈ e) → (∃ f, (f, true) ∈ e) ∨ ∃ f, owes (calls f)

/-- While `p` holds, all awaited listeners are notified or some call owes it to them. -/
def AllNotified (p : Prop) (e : Event) (owes : Call α → Prop) (calls : Nat → Call α) : Prop :=
  p → (∃ f, owes (calls f)) ∨ ∀ f, (f, false) ∈ e → (calls f).pc.waits = false

section Moves

variable {p p' : Prop} {e e' : Event} {owes : Call α → Prop} {calls : Nat → Call α} {f : Nat}
  {c : Call α}

theorem OneNotified.move (h : OneNotified p e owes calls)
    (hmove : p' → (∃ g, (g, false) ∈ e') → (∃ g, (g, true) ∈ e') ∨ owes c ∨
      (p ∧ ¬owes (calls f) ∧ (∃ g, (g, false) ∈ e) ∧
        ((∃ g, (g, true) ∈ e) → ∃ g, (g, true) ∈ e'))) :
    OneNotified p' e' owes (Function.update calls f c) := by
  intro hp hfalse
  rcases hmove hp hfalse with htrue | hc | ⟨hold, hidle, hfalse', htrue⟩
  · exact .inl htrue
  · exact .inr ⟨f, by rwa [Function.update_self]⟩
  · rcases h hold hfalse' with htrue' | ⟨g, hg⟩
    · exact .inl (htrue htrue')
    · have hne : g ≠ f := by
        rintro rfl
        exact hidle hg
      exact .inr ⟨g, by rwa [Function.update_of_ne hne]⟩

/-- The event is not touched. -/
theorem OneNotified.frame (h : OneNotified p e owes calls) (hp : p' → p ∨ owes c)
    (hc : p' → owes (calls f) → owes c) :
    OneNotified p' e owes (Function.update calls f c) := by
  refine h.move fun hp' hfalse => ?_
  rcases hp hp' with hold | hnow
  · by_cases howes : owes (calls f)
    · exact .inr (.inl (hc hp' howes))
    · exact .inr (.inr ⟨hold, howes, hfalse, id⟩)
  · exact .inr (.inl hnow)

theorem AllNotified.move (h : AllNotified p e owes calls)
    (hmove : p' → owes c ∨ (∀ g, (g, false) ∉ e') ∨
      (p ∧ ¬owes (calls f) ∧ (∀ g, g ≠ f → (g, false) ∈ e' → (g, false) ∈ e) ∧
        ((f, false) ∈ e' → c.pc.waits = true → (f, false) ∈ e ∧ (calls f).pc.waits = true))) :
    AllNotified p' e' owes (Function.update calls f c) := by
  intro hp
  rcases hmove hp with hc | hnone | ⟨hold, hidle, hother, hself⟩
  · exact .inl ⟨f, by rwa [Function.update_self]⟩
  · exact .inr fun g hg => absurd hg (hnone g)
  · rcases h hold with ⟨g, hg⟩ | hall
    · have hne : g ≠ f := by
        rintro rfl
        exact hidle hg
      exact .inl ⟨g, by rwa [Function.update_of_ne hne]⟩
    · refine .inr fun g hg => ?_
      rcases eq_or_ne g f with rfl | hne
      · rw [Function.update_self]
        by_contra hwait
        obtain ⟨hin, hw⟩ := hself hg (by simpa using hwait)
        rw [hall g hin] at hw
        cases hw
      · rw [Function.update_of_ne hne]
        exact hall g (hother g hne hg)

theorem AllNotified.frame (h : AllNotified p e owes calls) (hp : p' → p ∨ owes c)
    (hc : owes (calls f) → owes c)
    (hself : p' → (f, false) ∈ e → c.pc.waits = true → (calls f).pc.waits = true) :
    AllNotified p' e owes (Function.update calls f c) := by
  refine h.move fun hp' => ?_
  rcases hp hp' with hold | hnow
  · by_cases howes : owes (calls f)
    · exact .inl (hc howes)
    · exact .inr (.inr ⟨hold, howes, fun _ _ hg => hg, fun hin hw => ⟨hin, hself hp' hin hw⟩⟩)
  · exact .inl hnow

theorem OneNotified.notify : OneNotified p' (e.notify 1) owes calls :=
  fun _ ⟨_, hg⟩ => .inl (Event.exists_notified hg)

theorem OneNotified.notifyAll : OneNotified p' e.notifyAll owes calls :=
  fun _ ⟨g, hg⟩ => absurd hg (Event.not_mem_notifyAll g)

theorem OneNotified.owed (hc : owes c) : OneNotified p' e' owes (Function.update calls f c) :=
  fun _ _ => .inr ⟨f, by rwa [Function.update_self]⟩

theorem OneNotified.drop (h : OneNotified p e owes calls) (hp : p' → p)
    (hidle : ¬owes (calls f)) :
    OneNotified p' (e.drop f) owes (Function.update calls f c) := by
  refine h.move fun hp' ⟨g, hg⟩ => ?_
  obtain ⟨hin, htrue | ⟨hnot, heq⟩⟩ := Event.drop_covered hg
  · exact .inl htrue
  · refine .inr (.inr ⟨hp hp', hidle, ⟨g, hin⟩, fun ⟨i, hi⟩ => ⟨i, ?_⟩⟩)
    rw [heq]
    refine Event.mem_remove.mpr ⟨hi, ?_⟩
    rintro rfl
    exact hnot hi

theorem AllNotified.notifyAll : AllNotified p' e.notifyAll owes calls :=
  fun _ => .inr fun g hg => absurd hg (Event.not_mem_notifyAll g)

/-- The call does not await its listener, and no other call gets a new one. -/
theorem AllNotified.fewer (h : AllNotified p e owes calls) (hp : p' → p)
    (hc : owes (calls f) → owes c) (hw : c.pc.waits = false)
    (hsub : ∀ g, g ≠ f → (g, false) ∈ e' → (g, false) ∈ e) :
    AllNotified p' e' owes (Function.update calls f c) := by
  refine h.move fun hp' => ?_
  by_cases howes : owes (calls f)
  · exact .inl (hc howes)
  · exact .inr (.inr ⟨hp hp', howes, hsub, fun _ hwait => by simp [hw] at hwait⟩)

/-- The listeners of an event belong to calls of one kind, and the calls of that
kind that await have one. -/
structure Listeners (kind : Kind α → Bool) (e : Event) (calls : Nat → Call α) : Prop where
  owner : ∀ g ∈ e.map Prod.fst, kind (calls g).kind = true ∧ (calls g).pc.listens = true
  awaited : ∀ g, kind (calls g).kind = true → (calls g).pc.waits = true → g ∈ e.map Prod.fst

variable {kind : Kind α → Bool}

theorem Listeners.absent (h : Listeners kind e calls) {b : Bool}
    (hf : kind (calls f).kind = false ∨ (calls f).pc.listens = false) : (f, b) ∉ e := by
  intro hmem
  obtain ⟨hk, hl⟩ := h.owner f (List.mem_map_of_mem (f := Prod.fst) hmem)
  rcases hf with hf | hf
  · simp [hk] at hf
  · simp [hl] at hf

theorem Listeners.move (h : Listeners kind e calls)
    (hids : ∀ g, g ≠ f → (g ∈ e'.map Prod.fst ↔ g ∈ e.map Prod.fst))
    (hown : f ∈ e'.map Prod.fst → kind c.kind = true ∧ c.pc.listens = true)
    (hwait : kind c.kind = true → c.pc.waits = true → f ∈ e'.map Prod.fst) :
    Listeners kind e' (Function.update calls f c) := by
  constructor
  · intro g hg
    rcases eq_or_ne g f with rfl | hne
    · rw [Function.update_self]
      exact hown hg
    · rw [Function.update_of_ne hne]
      exact h.owner g ((hids g hne).mp hg)
  · intro g hk hw
    rcases eq_or_ne g f with rfl | hne
    · rw [Function.update_self] at hk hw
      exact hwait hk hw
    · rw [Function.update_of_ne hne] at hk hw
      exact (hids g hne).mpr (h.awaited g hk hw)

/-- The same listeners, notified or not; the call goes on. -/
theorem Listeners.goto (h : Listeners kind e calls) {pc : Pc} {out : Option (Outcome α)}
    (hids : e'.map Prod.fst = e.map Prod.fst)
    (hl : (calls f).pc.listens = true → kind (calls f).kind = true →
      pc.listens = true ∨ f ∉ e.map Prod.fst)
    (hw : kind (calls f).kind = true → pc.waits = true →
      (calls f).pc.waits = true ∨ f ∈ e.map Prod.fst) :
    Listeners kind e' (Function.update calls f ⟨(calls f).kind, pc, out⟩) := by
  refine h.move (fun g _ => by rw [hids]) ?_ ?_
  · intro hmem
    rw [hids] at hmem
    obtain ⟨hk, hlis⟩ := h.owner f hmem
    exact ⟨hk, (hl hlis hk).resolve_right fun hnot => hnot hmem⟩
  · intro hk hwait
    rw [hids]
    rcases hw hk hwait with hold | hmem
    · exact h.awaited f hk hold
    · exact hmem

/-- The call awaits its listener, or has none and gets one. -/
theorem Listeners.retry (h : Listeners kind e calls) {own : Event} {out : Option (Outcome α)}
    (hown : kind (calls f).kind = true → own = e) :
    Listeners kind e (Function.update calls f
      ⟨(calls f).kind, if f ∈ own.map Prod.fst then .await else .listen, out⟩) := by
  refine h.goto rfl ?_ ?_
  · intro _ hk
    rw [hown hk]
    split
    · exact .inl rfl
    · rename_i hnot
      exact .inr hnot
  · intro hk
    rw [hown hk]
    split
    · rename_i hmem
      exact fun _ => .inr hmem
    · intro hw
      cases hw

/-- What the calls know about one event: while `wanted` holds somebody is notified,
and while `shut` holds everybody is. -/
structure Side (kind : Kind α → Bool) (wanted shut : Prop) (e : Event)
    (owes closes : Call α → Prop) (calls : Nat → Call α) : Prop where
  listeners : Listeners kind e calls
  one : OneNotified wanted e owes calls
  all : AllNotified shut e closes calls

variable {wanted shut : Prop} {closes : Call α → Prop} {pc : Pc} {out : Option (Outcome α)}

/-- The call listens on another event. -/
theorem Side.pass (h : Side kind wanted shut e owes closes calls)
    (hk : kind (calls f).kind = false) (howes : ¬owes (calls f)) (hcloses : ¬closes (calls f)) :
    Side kind wanted shut e owes closes
      (Function.update calls f ⟨(calls f).kind, pc, out⟩) where
  listeners := h.listeners.goto rfl (by simp [hk]) (by simp [hk])
  one := h.one.frame .inl fun _ hold => absurd hold howes
  all := h.all.frame .inl (fun hold => absurd hold hcloses)
    fun _ hin _ => absurd hin (h.listeners.absent (.inl hk))

theorem Side.listen (h : Side kind wanted shut e owes closes calls)
    (hk : kind (calls f).kind = true) (hcloses : ¬closes (calls f))
    (howes : owes ⟨(calls f).kind, .attempt, out⟩ ∨ ¬wanted) :
    Side kind wanted shut (e.listen f) owes closes
      (Function.update calls f ⟨(calls f).kind, .attempt, out⟩) := by
  constructor
  · refine h.listeners.move (fun g hg => ?_) (fun _ => ⟨hk, rfl⟩) (by simp [Pc.waits])
    simp [Event.listen, hg]
  · rcases howes with howes | hnot
    · exact .owed howes
    · exact fun hwanted => absurd hwanted hnot
  · refine h.all.fewer id (fun hold => absurd hold hcloses) rfl fun g hg hin => ?_
    simpa [Event.listen, hg] using hin

/-- The listener is notified, and the call tries again. -/
theorem Side.remove (h : Side kind wanted shut e owes closes calls)
    (hcloses : ¬closes (calls f)) (howes : owes ⟨(calls f).kind, .attempt, out⟩ ∨ ¬wanted) :
    Side kind wanted shut (e.remove f) owes closes
      (Function.update calls f ⟨(calls f).kind, .attempt, out⟩) := by
  constructor
  · refine h.listeners.move (fun g hg => ?_) (fun hmem => ?_) (by simp [Pc.waits])
    · simp [Event.map_fst_remove, hg]
    · simp [Event.map_fst_remove] at hmem
  · rcases howes with howes | hnot
    · exact .owed howes
    · exact fun hwanted => absurd hwanted hnot
  · exact h.all.fewer id (fun hold => absurd hold hcloses) rfl
      fun g _ hin => (Event.mem_remove.mp hin).1

theorem Side.drop (h : Side kind wanted shut e owes closes calls)
    (howes : ¬owes (calls f)) (hcloses : ¬closes (calls f)) :
    Side kind wanted shut (e.drop f) owes closes
      (Function.update calls f ⟨(calls f).kind, .done, out⟩) := by
  constructor
  · refine h.listeners.move (fun g hg => ?_) (fun hmem => ?_) (by simp [Pc.waits])
    · simp [Event.map_fst_drop, hg]
    · simp [Event.map_fst_drop] at hmem
  · exact h.one.drop id howes
  · exact h.all.fewer id (fun hold => absurd hold hcloses) rfl
      fun g _ hin => (Event.drop_covered hin).1

/-- The call goes on without its listener being looked at. -/
theorem Side.goto (h : Side kind wanted shut e owes closes calls)
    (howes : wanted → owes (calls f) → owes ⟨(calls f).kind, pc, out⟩)
    (hcloses : closes (calls f) → closes ⟨(calls f).kind, pc, out⟩)
    (hl : pc.listens = true) (hw : pc.waits = true → (calls f).pc.waits = true) :
    Side kind wanted shut e owes closes
      (Function.update calls f ⟨(calls f).kind, pc, out⟩) where
  listeners := h.listeners.goto rfl (fun _ _ => .inl hl) fun _ hwait => .inl (hw hwait)
  one := h.one.frame .inl howes
  all := h.all.frame .inl hcloses fun _ _ hwait => hw hwait

/-- A call starts under a name that is free. -/
theorem Side.start (h : Side kind wanted shut e owes closes calls) {k : Kind α}
    (hpc : (calls f).pc = .done) (howes : ¬owes (calls f)) (hcloses : ¬closes (calls f)) :
    Side kind wanted shut e owes closes (Function.update calls f ⟨k, .attempt, none⟩) := by
  have habsent : f ∉ e.map Prod.fst := by
    intro hmem
    have := (h.listeners.owner f hmem).2
    rw [hpc] at this
    cases this
  constructor
  · exact h.listeners.move (fun _ _ => Iff.rfl) (fun hmem => absurd hmem habsent)
      (by simp [Pc.waits])
  · exact h.one.frame .inl fun _ hold => absurd hold howes
  · exact h.all.frame .inl (fun hold => absurd hold hcloses) (by simp [Pc.waits])

theorem Side.notify (h : Side kind wanted shut e owes closes calls)
    (hcloses : closes (calls f) → closes ⟨(calls f).kind, pc, out⟩)
    (hl : pc.listens = true) (hw : pc.waits = false) :
    Side kind wanted shut (e.notify 1) owes closes
      (Function.update calls f ⟨(calls f).kind, pc, out⟩) where
  listeners := h.listeners.goto (Event.map_fst_notify 1 e) (fun _ _ => .inl hl) (by simp [hw])
  one := .notify
  all := h.all.fewer id hcloses hw fun _ _ hin => Event.mem_of_mem_notify_false hin

theorem Side.notifyAll (h : Side kind wanted shut e owes closes calls)
    (hl : pc.listens = true) (hw : pc.waits = false) :
    Side kind wanted shut e.notifyAll owes closes
      (Function.update calls f ⟨(calls f).kind, pc, out⟩) where
  listeners := h.listeners.goto (Event.map_fst_notifyAll e) (fun _ _ => .inl hl) (by simp [hw])
  one := .notifyAll
  all := .notifyAll

end Moves

structure Inv (s : Channel α) : Prop where
  bound : ∀ cap, s.capacity = some cap → s.queue.length ≤ cap
  blocking : ∀ f, (s.calls f).pc.blocks = true → (s.calls f).kind.isSend = true ∨
    (s.calls f).kind = .recv ∨ (s.calls f).kind = .next
  send : Side Kind.isSend (¬s.isFull ∧ s.closed = false) (s.closed = true) s.sendOps
    (Call.owesSend s.capacity) Call.closesSend s.calls
  recv : Side Kind.isRecv (s.queue ≠ []) (s.closed = true) s.recvOps
    (Call.owesRecv s.capacity) Call.closesRecv s.calls
  stream : Side Kind.isNext False (s.queue ≠ [] ∨ s.closed = true) s.streamOps
    (fun _ => False) Call.owesStream s.calls

theorem kind_of_isSend {k : Kind α} (hk : k.isSend = true) : ∃ msg, k = .send msg := by
  cases k <;> first | exact ⟨_, rfl⟩ | cases hk

theorem kind_of_isRecv {k : Kind α} (hk : k.isRecv = true) : k = .recv := by
  cases k <;> first | rfl | cases hk

section Exec

variable {s : Channel α} {f : Nat}

theorem blocking_update {calls : Nat → Call α} {c : Call α}
    (h : ∀ g, (calls g).pc.blocks = true → (calls g).kind.isSend = true ∨
      (calls g).kind = .recv ∨ (calls g).kind = .next)
    (hc : c.pc.blocks = true → c.kind.isSend = true ∨ c.kind = .recv ∨ c.kind = .next) :
    ∀ g, (Function.update calls f c g).pc.blocks = true →
      (Function.update calls f c g).kind.isSend = true ∨
      (Function.update calls f c g).kind = .recv ∨ (Function.update calls f c g).kind = .next := by
  intro g
  rcases eq_or_ne g f with rfl | hne
  · rw [Function.update_self]
    exact hc
  · rw [Function.update_of_ne hne]
    exact h g

theorem event_of_isSend {k : Kind α} (hk : k.isSend = true) : s.event k = s.sendOps := by
  cases k <;> first | rfl | cases hk

theorem event_of_isRecv {k : Kind α} (hk : k.isRecv = true) : s.event k = s.recvOps := by
  cases k <;> first | rfl | cases hk

theorem event_of_isNext {k : Kind α} (hk : k.isNext = true) : s.event k = s.streamOps := by
  cases k <;> first | rfl | cases hk

/-- The call returns without having touched the queue. -/
theorem inv_return (h : Inv s) {out : Outcome α} (hpc : (s.calls f).pc = .attempt)
    (hr : (s.calls f).kind = .recv → s.queue = [])
    (hs : (s.calls f).kind.isSend = true → s.closed = true) :
    Inv (s.finish f .finish out) where
  bound := h.bound
  blocking := blocking_update h.blocking (by simp [Pc.blocks])
  send := by
    refine h.send.goto ?_ (by simp [Call.closesSend, hpc]) rfl (by simp [Pc.waits])
    cases hk : (s.calls f).kind <;> simp_all [Call.owesSend, Kind.isSend]
  recv := by
    refine h.recv.goto ?_ (by simp [Call.closesRecv, hpc]) rfl (by simp [Pc.waits])
    cases hk : (s.calls f).kind <;> simp_all [Call.owesRecv]
  stream := h.stream.goto (by simp) (by simp [Call.owesStream, hpc]) rfl (by simp [Pc.waits])

theorem inv_push (h : Inv s) {msg : α} (hpc : (s.calls f).pc = .attempt)
    (hk : (s.calls f).kind = .send msg ∨ (s.calls f).kind = .trySend msg)
    (hfull : ¬s.isFull) :
    Inv ({ s with queue := s.queue ++ [msg] }.finish f .oweRecv .sent) := by
  have hroom : ∀ cap, s.capacity = some cap → s.queue.length < cap := by
    intro cap hcap
    by_contra hle
    exact hfull ⟨cap, hcap, by omega⟩
  constructor
  · intro cap hcap
    have := hroom cap hcap
    simp only [Channel.finish, Channel.setCall, List.length_append, List.length_singleton]
    omega
  · exact blocking_update h.blocking (by simp [Pc.blocks])
  · constructor
    · exact h.send.listeners.goto rfl (by simp [Pc.listens]) (by simp [Pc.waits])
    · refine h.send.one.frame (fun hp => .inl ⟨hfull, hp.2⟩) fun hp howes => ?_
      rcases hk with hk | hk
      · simp only [Call.owesSend, hk]
        -- a queue of capacity 1 is full now
        intro hone
        refine hp.1 ⟨1, hone, ?_⟩
        simp [Channel.finish, Channel.setCall]
      · simp [Call.owesSend, hk, hpc] at howes
    · exact h.send.all.frame .inl (by simp [Call.closesSend, hpc]) (by simp [Pc.waits])
  · constructor
    · exact h.recv.listeners.goto rfl (by simp [Pc.listens]) (by simp [Pc.waits])
    · refine .owed ?_
      rcases hk with hk | hk <;> simp [Call.owesRecv, hk]
    · exact h.recv.all.frame .inl (by simp [Call.closesRecv, hpc]) (by simp [Pc.waits])
  · constructor
    · exact h.stream.listeners.goto rfl (by simp [Pc.listens]) (by simp [Pc.waits])
    · exact fun hp => hp.elim
    · refine h.stream.all.frame (fun _ => .inr ?_) (fun _ => ?_) (by simp [Pc.waits]) <;>
        rcases hk with hk | hk <;> simp [Call.owesStream, hk]

theorem inv_pop (h : Inv s) {msg : α} {rest : List α} (hpc : (s.calls f).pc = .attempt)
    (hk : (s.calls f).kind = .recv ∨ (s.calls f).kind = .tryRecv ∨ (s.calls f).kind = .next)
    (hq : s.queue = msg :: rest) :
    Inv ({ s with queue := rest }.finish f .oweSend (.received msg)) := by
  have hlen : ∀ cap, s.capacity = some cap → rest.length + 1 ≤ cap := by
    intro cap hcap
    have := h.bound cap hcap
    rwa [hq] at this
  constructor
  · intro cap hcap
    exact Nat.le_of_succ_le (hlen cap hcap)
  · exact blocking_update h.blocking (by simp [Pc.blocks])
  · constructor
    · exact h.send.listeners.goto rfl (by simp [Pc.listens]) (by simp [Pc.waits])
    · refine .owed ?_
      rcases hk with hk | hk | hk <;> simp [Call.owesSend, hk]
    · exact h.send.all.frame .inl (by simp [Call.closesSend, hpc]) (by simp [Pc.waits])
  · constructor
    · exact h.recv.listeners.goto rfl (by simp [Pc.listens]) (by simp [Pc.waits])
    · refine h.recv.one.frame (fun _ => .inl (by simp [hq])) fun hp howes => ?_
      rcases hk with hk | hk | hk
      · simp only [Call.owesRecv, hk]
        -- a queue of capacity 1 is empty now
        intro hone
        have := hlen 1 hone
        exact hp (List.eq_nil_of_length_eq_zero (l := rest) (by omega))
      · simp [Call.owesRecv, hk, hpc] at howes
      · simp [Call.owesRecv, hk, hpc] at howes
    · exact h.recv.all.frame .inl (by simp [Call.closesRecv, hpc]) (by simp [Pc.waits])
  · constructor
    · exact h.stream.listeners.goto rfl (by simp [Pc.listens]) (by simp [Pc.waits])
    · exact fun hp => hp.elim
    · exact h.stream.all.frame (fun hp => .inl (hp.imp (by simp [hq]) id))
        (by simp [Call.owesStream, hpc]) (by simp [Pc.waits])

theorem inv_retry (h : Inv s) (hpc : (s.calls f).pc = .attempt) (hclosed : s.closed = false)
    (hk : (s.calls f).kind.isSend = true ∧ s.isFull ∨
      ((s.calls f).kind = .recv ∨ (s.calls f).kind = .next) ∧ s.queue = []) :
    Inv (s.retry f) := by
  have hopen : ¬(s.retry f).closed = true := by
    simp [Channel.retry, Channel.goto, Channel.setCall, hclosed]
  constructor
  · exact h.bound
  · refine blocking_update h.blocking fun _ => ?_
    tauto
  · constructor
    · exact h.send.listeners.retry event_of_isSend
    · refine h.send.one.frame .inl fun hp howes => ?_
      have hfull : ¬s.isFull := hp.1
      cases hkind : (s.calls f).kind <;> simp_all [Call.owesSend, Kind.isSend]
    · exact fun hp => absurd hp hopen
  · constructor
    · exact h.recv.listeners.retry event_of_isRecv
    · refine h.recv.one.frame .inl fun hp howes => ?_
      have hq : s.queue ≠ [] := hp
      cases hkind : (s.calls f).kind <;> simp_all [Call.owesRecv, Kind.isSend]
    · exact fun hp => absurd hp hopen
  · constructor
    · exact h.stream.listeners.retry event_of_isNext
    · exact fun hp => hp.elim
    · refine h.stream.all.frame .inl (by simp [Call.owesStream, hpc]) fun hp hin _ => ?_
      refine absurd hin (h.stream.listeners.absent (.inl ?_))
      have hq : s.queue ≠ [] := hp.resolve_right hopen
      cases hkind : (s.calls f).kind <;> simp_all [Kind.isNext, Kind.isSend]

theorem inv_close (h : Inv s) (hk : (s.calls f).kind = .close) :
    Inv ({ s with closed := true }.finish f .oweSend (.closed true)) where
  bound := h.bound
  blocking := blocking_update h.blocking (by simp [Pc.blocks])
  send :=
    { listeners := h.send.listeners.goto rfl (by simp [Pc.listens]) (by simp [Pc.waits])
      one := fun hp => by cases hp.2
      all := fun _ => .inl ⟨f, by simp [Channel.finish, Channel.setCall, Call.closesSend, hk]⟩ }
  recv :=
    { listeners := h.recv.listeners.goto rfl (by simp [Pc.listens]) (by simp [Pc.waits])
      one := .owed (by simp [Call.owesRecv, hk])
      all := fun _ => .inl ⟨f, by simp [Channel.finish, Channel.setCall, Call.closesRecv, hk]⟩ }
  stream :=
    { listeners := h.stream.listeners.goto rfl (by simp [Pc.listens]) (by simp [Pc.waits])
      one := fun hp => hp.elim
      all := fun _ => .inl ⟨f, by simp [Channel.finish, Channel.setCall, Call.owesStream, hk]⟩ }

theorem inv_attempt (h : Inv s) (hpc : (s.calls f).pc = .attempt) : Inv (s.attempt f) := by
  unfold Channel.attempt
  cases hk : (s.calls f).kind with
  | send msg =>
    dsimp only
    split
    · rename_i hclosed
      exact inv_return h hpc (by simp [hk]) fun _ => hclosed
    · rename_i hclosed
      split
      · rename_i hfull
        exact inv_retry h hpc (by simpa using hclosed) (.inl ⟨by simp [hk, Kind.isSend], hfull⟩)
      · rename_i hfull
        exact inv_push h hpc (.inl hk) hfull
  | trySend msg =>
    dsimp only
    split
    · exact inv_return h hpc (by simp [hk]) (by simp [hk, Kind.isSend])
    · split
      · exact inv_return h hpc (by simp [hk]) (by simp [hk, Kind.isSend])
      · rename_i hfull
        exact inv_push h hpc (.inr hk) hfull
  | recv =>
    dsimp only
    split
    · rename_i hq
      exact inv_pop h hpc (.inl hk) hq
    · rename_i hq
      split
      · exact inv_return h hpc (fun _ => hq) (by simp [hk, Kind.isSend])
      · rename_i hclosed
        exact inv_retry h hpc (by simpa using hclosed) (.inr ⟨.inl hk, hq⟩)
  | next =>
    dsimp only
    split
    · rename_i hq
      exact inv_pop h hpc (.inr (.inr hk)) hq
    · rename_i hq
      split
      · exact inv_return h hpc (fun _ => hq) (by simp [hk, Kind.isSend])
      · rename_i hclosed
        exact inv_retry h hpc (by simpa using hclosed) (.inr ⟨.inr hk, hq⟩)
  | tryRecv =>
    dsimp only
    split
    · rename_i hq
      exact inv_pop h hpc (.inr (.inl hk)) hq
    · rename_i hq
      exact inv_return h hpc (fun _ => hq) (by simp [hk, Kind.isSend])
  | close =>
    dsimp only
    split
    · exact inv_return h hpc (by simp [hk]) (by simp [hk, Kind.isSend])
    · exact inv_close h hk

theorem inv_listen (h : Inv s) (hpc : (s.calls f).pc = .listen) :
    Inv ((s.setEvent ((s.event (s.calls f).kind).listen f) (s.calls f).kind).goto f
      .attempt) := by
  have hblock := h.blocking f (by simp [hpc, Pc.blocks])
  cases hk : (s.calls f).kind with
  | send msg =>
    exact ⟨h.bound, blocking_update h.blocking (by simp [Pc.blocks]),
      h.send.listen (by simp [hk, Kind.isSend]) (by simp [Call.closesSend, hpc])
        (.inl (by simp [Call.owesSend, hk])),
      h.recv.pass (by simp [hk, Kind.isRecv]) (by simp [Call.owesRecv, hpc])
        (by simp [Call.closesRecv, hpc]),
      h.stream.pass (by simp [hk, Kind.isNext]) id (by simp [Call.owesStream, hpc])⟩
  | recv =>
    exact ⟨h.bound, blocking_update h.blocking (by simp [Pc.blocks]),
      h.send.pass (by simp [hk, Kind.isSend]) (by simp [Call.owesSend, hpc])
        (by simp [Call.closesSend, hpc]),
      h.recv.listen (by simp [hk, Kind.isRecv]) (by simp [Call.closesRecv, hpc])
        (.inl (by simp [Call.owesRecv, hk])),
      h.stream.pass (by simp [hk, Kind.isNext]) id (by simp [Call.owesStream, hpc])⟩
  | next =>
    exact ⟨h.bound, blocking_update h.blocking (by simp [Pc.blocks]),
      h.send.pass (by simp [hk, Kind.isSend]) (by simp [Call.owesSend, hpc])
        (by simp [Call.closesSend, hpc]),
      h.recv.pass (by simp [hk, Kind.isRecv]) (by simp [Call.owesRecv, hpc])
        (by simp [Call.closesRecv, hpc]),
      h.stream.listen (by simp [hk, Kind.isNext]) (by simp [Call.owesStream, hpc]) (.inr id)⟩
  | trySend => simp [hk, Kind.isSend] at hblock
  | tryRecv => simp [hk, Kind.isSend] at hblock
  | close => simp [hk, Kind.isSend] at hblock

/-- The listener is notified. -/
theorem inv_woken (h : Inv s) (hpc : (s.calls f).pc = .await) :
    Inv ((s.setEvent ((s.event (s.calls f).kind).remove f) (s.calls f).kind).goto f
      .attempt) := by
  have hblock := h.blocking f (by simp [hpc, Pc.blocks])
  cases hk : (s.calls f).kind with
  | send msg =>
    exact ⟨h.bound, blocking_update h.blocking (by simp [Pc.blocks]),
      h.send.remove (by simp [Call.closesSend, hpc]) (.inl (by simp [Call.owesSend, hk])),
      h.recv.pass (by simp [hk, Kind.isRecv]) (by simp [Call.owesRecv, hpc])
        (by simp [Call.closesRecv, hpc]),
      h.stream.pass (by simp [hk, Kind.isNext]) id (by simp [Call.owesStream, hpc])⟩
  | recv =>
    exact ⟨h.bound, blocking_update h.blocking (by simp [Pc.blocks]),
      h.send.pass (by simp [hk, Kind.isSend]) (by simp [Call.owesSend, hpc])
        (by simp [Call.closesSend, hpc]),
      h.recv.remove (by simp [Call.closesRecv, hpc]) (.inl (by simp [Call.owesRecv, hk])),
      h.stream.pass (by simp [hk, Kind.isNext]) id (by simp [Call.owesStream, hpc])⟩
  | next =>
    exact ⟨h.bound, blocking_update h.blocking (by simp [Pc.blocks]),
      h.send.pass (by simp [hk, Kind.isSend]) (by simp [Call.owesSend, hpc])
        (by simp [Call.closesSend, hpc]),
      h.recv.pass (by simp [hk, Kind.isRecv]) (by simp [Call.owesRecv, hpc])
        (by simp [Call.closesRecv, hpc]),
      h.stream.remove (by simp [Call.owesStream, hpc]) (.inr id)⟩
  | trySend => simp [hk, Kind.isSend] at hblock
  | tryRecv => simp [hk, Kind.isSend] at hblock
  | close => simp [hk, Kind.isSend] at hblock

/-- The call goes on and owes nothing before or after. -/
theorem inv_goto (h : Inv s) {pc : Pc}
    (hpc : (s.calls f).pc = .await ∨ (s.calls f).pc = .suspended)
    (hl : pc = .await ∨ pc = .suspended ∨ pc = .finish) : Inv (s.goto f pc) := by
  have hlis : pc.listens = true := by
    rcases hl with rfl | rfl | rfl <;> rfl
  have hwait : pc.waits = true → (s.calls f).pc.waits = true := fun _ => by
    rcases hpc with hpc | hpc <;> rw [hpc] <;> rfl
  refine ⟨h.bound, blocking_update h.blocking fun _ => h.blocking f ?_,
    h.send.goto ?_ ?_ hlis hwait, h.recv.goto ?_ ?_ hlis hwait,
    h.stream.goto (fun hp => hp.elim) ?_ hlis hwait⟩
  · rcases hpc with hpc | hpc <;> simp [hpc, Pc.blocks]
  · rcases hpc with hpc | hpc <;> simp [Call.owesSend, hpc]
  · rcases hpc with hpc | hpc <;> simp [Call.closesSend, hpc]
  · rcases hpc with hpc | hpc <;> simp [Call.owesRecv, hpc]
  · rcases hpc with hpc | hpc <;> simp [Call.closesRecv, hpc]
  · rcases hpc with hpc | hpc <;> simp [Call.owesStream, hpc]

theorem inv_oweSend (h : Inv s) (hpc : (s.calls f).pc = .oweSend) {t : Channel α}
    (ht : s.exec f = some t) : Inv t := by
  simp only [Channel.exec, hpc, Option.some.injEq] at ht
  subst ht
  split <;> rename_i hk
  · exact ⟨h.bound, blocking_update h.blocking (by simp [Pc.blocks]), h.send.notifyAll rfl rfl,
      h.recv.goto (by simp [Call.owesRecv, hpc, hk]) (by simp [Call.closesRecv, hpc]) rfl
        (by simp [Pc.waits]),
      h.stream.goto (fun hp => hp.elim) (by simp [Call.owesStream, hpc, hk]) rfl
        (by simp [Pc.waits])⟩
  · exact ⟨h.bound, blocking_update h.blocking (by simp [Pc.blocks]),
      h.send.notify (by simp [Call.closesSend, hk]) rfl rfl,
      h.recv.goto (by simp [Call.owesRecv, hpc, hk]) (by simp [Call.closesRecv, hk]) rfl
        (by simp [Pc.waits]),
      h.stream.goto (fun hp => hp.elim) (by simp [Call.owesStream, hpc, hk]) rfl
        (by simp [Pc.waits])⟩
  · rename_i hclose
    refine ⟨h.bound, blocking_update h.blocking (by simp [Pc.blocks]),
      h.send.notify (fun hc => absurd hc.1 hclose) rfl rfl,
      h.recv.goto ?_ (fun hc => absurd hc.1 hclose) rfl (by simp [Pc.waits]),
      h.stream.goto (fun hp => hp.elim) ?_ rfl (by simp [Pc.waits])⟩
    · cases hkind : (s.calls f).kind <;> simp_all [Call.owesRecv]
    · cases hkind : (s.calls f).kind <;> simp_all [Call.owesStream]

theorem inv_oweRecv (h : Inv s) (hpc : (s.calls f).pc = .oweRecv) {t : Channel α}
    (ht : s.exec f = some t) : Inv t := by
  simp only [Channel.exec, hpc, Option.some.injEq] at ht
  subst ht
  split <;> rename_i hk
  · exact ⟨h.bound, blocking_update h.blocking (by simp [Pc.blocks]),
      h.send.goto (by simp [Call.owesSend, hpc, hk]) (by simp [Call.closesSend, hpc]) rfl
        (by simp [Pc.waits]),
      h.recv.notifyAll rfl rfl,
      h.stream.goto (fun hp => hp.elim) (by simp [Call.owesStream, hpc, hk]) rfl
        (by simp [Pc.waits])⟩
  · refine ⟨h.bound, blocking_update h.blocking (by simp [Pc.blocks]),
      h.send.goto ?_ (by simp [Call.closesSend, hpc]) rfl (by simp [Pc.waits]),
      h.recv.notify (fun hc => absurd hc.1 hk) rfl rfl,
      h.stream.goto (fun hp => hp.elim) ?_ rfl (by simp [Pc.waits])⟩
    · cases hkind : (s.calls f).kind <;> simp_all [Call.owesSend]
    · cases hkind : (s.calls f).kind <;> simp_all [Call.owesStream]

theorem inv_oweStream (h : Inv s) (hpc : (s.calls f).pc = .oweStream) {t : Channel α}
    (ht : s.exec f = some t) : Inv t := by
  simp only [Channel.exec, hpc, Option.some.injEq] at ht
  subst ht
  split <;> rename_i hk
  · exact ⟨h.bound, blocking_update h.blocking (by simp [Pc.blocks]),
      h.send.goto (by simp [Call.owesSend, hpc, hk]) (by simp [Call.closesSend, hpc]) rfl
        (by simp [Pc.waits]),
      h.recv.goto (by simp [Call.owesRecv, hpc]) (by simp [Call.closesRecv, hpc]) rfl
        (by simp [Pc.waits]),
      h.stream.notifyAll rfl rfl⟩
  · refine ⟨h.bound, blocking_update h.blocking (by simp [Pc.blocks]),
      h.send.goto ?_ (by simp [Call.closesSend, hpc]) rfl (by simp [Pc.waits]),
      h.recv.goto (by simp [Call.owesRecv, hpc]) (by simp [Call.closesRecv, hpc]) rfl
        (by simp [Pc.waits]),
      h.stream.notifyAll rfl rfl⟩
    cases hkind : (s.calls f).kind <;> simp_all [Call.owesSend]

theorem inv_chain (h : Inv s) (hpc : (s.calls f).pc = .chain) {t : Channel α}
    (ht : s.exec f = some t) : Inv t := by
  simp only [Channel.exec, hpc, Option.some.injEq] at ht
  have hcs : ¬(s.calls f).closesSend := by simp [Call.closesSend, hpc]
  have hcr : ¬(s.calls f).closesRecv := by simp [Call.closesRecv, hpc]
  have hst : ¬(s.calls f).owesStream := by simp [Call.owesStream, hpc]
  subst ht
  split <;> rename_i hk
  · have hor : ¬(s.calls f).owesRecv s.capacity := by simp [Call.owesRecv, hpc, hk]
    split <;> rename_i hone
    · exact ⟨h.bound, blocking_update h.blocking (by simp [Pc.blocks]),
        h.send.goto (by simp [Call.owesSend, hpc, hk, hone]) (absurd · hcs) rfl nofun,
        h.recv.goto (fun _ => (absurd · hor)) (absurd · hcr) rfl nofun,
        h.stream.goto (fun hp => hp.elim) (absurd · hst) rfl nofun⟩
    · exact ⟨h.bound, blocking_update h.blocking (by simp [Pc.blocks]),
        h.send.notify (absurd · hcs) rfl rfl,
        h.recv.goto (fun _ => (absurd · hor)) (absurd · hcr) rfl nofun,
        h.stream.goto (fun hp => hp.elim) (absurd · hst) rfl nofun⟩
  · have hos : ¬(s.calls f).owesSend s.capacity := by
      cases hkind : (s.calls f).kind <;> simp_all [Call.owesSend]
    split <;> rename_i hone
    · refine ⟨h.bound, blocking_update h.blocking (by simp [Pc.blocks]),
        h.send.goto (fun _ => (absurd · hos)) (absurd · hcs) rfl nofun,
        h.recv.goto ?_ (absurd · hcr) rfl nofun,
        h.stream.goto (fun hp => hp.elim) (absurd · hst) rfl nofun⟩
      cases hkind : (s.calls f).kind <;> simp_all [Call.owesRecv]
    · exact ⟨h.bound, blocking_update h.blocking (by simp [Pc.blocks]),
        h.send.goto (fun _ => (absurd · hos)) (absurd · hcs) rfl nofun,
        h.recv.notify (absurd · hcr) rfl rfl,
        h.stream.goto (fun hp => hp.elim) (absurd · hst) rfl nofun⟩

theorem inv_finish (h : Inv s) (hpc : (s.calls f).pc = .finish) :
    Inv ((s.setEvent ((s.event (s.calls f).kind).drop f) (s.calls f).kind).goto f .done) := by
  have hos : ¬(s.calls f).owesSend s.capacity := by simp [Call.owesSend, hpc]
  have hor : ¬(s.calls f).owesRecv s.capacity := by simp [Call.owesRecv, hpc]
  have hcs : ¬(s.calls f).closesSend := by simp [Call.closesSend, hpc]
  have hcr : ¬(s.calls f).closesRecv := by simp [Call.closesRecv, hpc]
  have hst : ¬(s.calls f).owesStream := by simp [Call.owesStream, hpc]
  cases hk : (s.calls f).kind with
  | send msg | trySend msg =>
    exact ⟨h.bound, blocking_update h.blocking (by simp [Pc.blocks]), h.send.drop hos hcs,
      h.recv.pass (by simp [hk, Kind.isRecv]) hor hcr,
      h.stream.pass (by simp [hk, Kind.isNext]) id hst⟩
  | recv | tryRecv | close =>
    exact ⟨h.bound, blocking_update h.blocking (by simp [Pc.blocks]),
      h.send.pass (by simp [hk, Kind.isSend]) hos hcs, h.recv.drop hor hcr,
      h.stream.pass (by simp [hk, Kind.isNext]) id hst⟩
  | next =>
    exact ⟨h.bound, blocking_update h.blocking (by simp [Pc.blocks]),
      h.send.pass (by simp [hk, Kind.isSend]) hos hcs,
      h.recv.pass (by simp [hk, Kind.isRecv]) hor hcr, h.stream.drop id hst⟩

theorem inv_exec (h : Inv s) {t : Channel α} (ht : s.exec f = some t) : Inv t := by
  cases hpc : (s.calls f).pc with
  | attempt =>
    simp only [Channel.exec, hpc, Option.some.injEq] at ht
    exact ht ▸ inv_attempt h hpc
  | listen =>
    simp only [Channel.exec, hpc, Option.some.injEq] at ht
    exact ht ▸ inv_listen h hpc
  | await =>
    simp only [Channel.exec, hpc, Option.some.injEq] at ht
    subst ht
    split
    · exact inv_woken h hpc
    · exact inv_goto h (.inl hpc) (.inr (.inl rfl))
  | oweSend => exact inv_oweSend h hpc ht
  | oweRecv => exact inv_oweRecv h hpc ht
  | oweStream => exact inv_oweStream h hpc ht
  | chain => exact inv_chain h hpc ht
  | finish =>
    simp only [Channel.exec, hpc, Option.some.injEq] at ht
    exact ht ▸ inv_finish h hpc
  | suspended => simp [Channel.exec, hpc] at ht
  | done => simp [Channel.exec, hpc] at ht

theorem inv_start (h : Inv s) {kind : Kind α} {t : Channel α} (ht : s.start f kind = some t) :
    Inv t := by
  unfold Channel.start at ht
  split at ht
  · rename_i hpc
    cases ht
    exact ⟨h.bound, blocking_update h.blocking (by simp [Pc.blocks]),
      h.send.start hpc (by simp [Call.owesSend, hpc]) (by simp [Call.closesSend, hpc]),
      h.recv.start hpc (by simp [Call.owesRecv, hpc]) (by simp [Call.closesRecv, hpc]),
      h.stream.start hpc id (by simp [Call.owesStream, hpc])⟩
  · cases ht

/-- The counts of the handles play no part. -/
theorem Inv.counts (h : Inv s) (senders receivers : Nat) :
    Inv { s with senderCount := senders, receiverCount := receivers } :=
  ⟨h.bound, h.blocking, h.send, h.recv, h.stream⟩

theorem inv_step (h : Inv s) {a : Act α} {t : Channel α} (ht : step s a = some t) : Inv t := by
  cases a with
  | start f kind => exact inv_start h ht
  | poll f =>
    simp only [step] at ht
    split at ht
    · rename_i hpc
      cases ht
      exact inv_goto h (.inr hpc) (.inl rfl)
    · cases ht
  | drop f =>
    simp only [step] at ht
    split at ht
    · rename_i hpc
      cases ht
      exact inv_goto h (.inr hpc) (.inr (.inr rfl))
    · cases ht
  | step f => exact inv_exec h ht
  | cloneSender =>
    cases ht
    exact h.counts (s.senderCount + 1) s.receiverCount
  | cloneReceiver =>
    cases ht
    exact h.counts s.senderCount (s.receiverCount + 1)
  | dropSender f =>
    simp only [step] at ht
    split_ifs at ht
    · exact inv_start (h.counts (s.senderCount - 1) s.receiverCount) ht
    · cases ht
      exact h.counts (s.senderCount - 1) s.receiverCount
  | dropReceiver f =>
    simp only [step] at ht
    split_ifs at ht
    · exact inv_start (h.counts s.senderCount (s.receiverCount - 1)) ht
    · cases ht
      exact h.counts s.senderCount (s.receiverCount - 1)

end Exec

theorem inv_new (capacity : Option Nat) : Inv (Channel.new capacity : Channel α) := by
  refine ⟨by simp [Channel.new], by simp [Channel.new, Pc.blocks], ?_, ?_, ?_⟩ <;>
    refine ⟨⟨by simp [Channel.new], by simp [Channel.new, Pc.waits]⟩, ?_, ?_⟩ <;>
    simp [OneNotified, AllNotified, Channel.new]

theorem inv_reachable {capacity : Option Nat} {s : Channel α}
    (h : (system capacity).Reachable s) : Inv s :=
  System.Reachable.invariant (I := Inv) (inv_new capacity) (fun _ _ _ hi ht => inv_step hi ht) h

/-- No call is in the middle of a poll. -/
def Channel.Quiescent (s : Channel α) : Prop :=
  ∀ f, (s.calls f).pc = .suspended ∨ (s.calls f).pc = .done

section Quiescent

variable {s : Channel α} {kind : Kind α → Bool} {wanted shut : Prop} {e : Event}
  {owes closes : Call α → Prop}

theorem Side.all_notified (h : Side kind wanted shut e owes closes s.calls) (hshut : shut)
    (hcloses : ∀ f, ¬closes (s.calls f)) {f : Nat} (hk : kind (s.calls f).kind = true)
    (hpc : (s.calls f).pc = .suspended) : (f, true) ∈ e := by
  have hw : (s.calls f).pc.waits = true := by rw [hpc]; rfl
  rcases h.all hshut with ⟨g, hg⟩ | hall
  · exact absurd hg (hcloses g)
  · obtain ⟨⟨_, b⟩, hmem, rfl⟩ := List.mem_map.mp (h.listeners.awaited f hk hw)
    cases b with
    | true => exact hmem
    | false =>
      have := hall _ hmem
      rw [hw] at this
      cases this

theorem Side.one_notified (h : Side kind wanted shut e owes closes s.calls) (hwanted : wanted)
    (howes : ∀ f, ¬owes (s.calls f)) (hq : s.Quiescent) {f : Nat}
    (hk : kind (s.calls f).kind = true) (hpc : (s.calls f).pc = .suspended) :
    ∃ g, kind (s.calls g).kind = true ∧ (s.calls g).pc = .suspended ∧ (g, true) ∈ e := by
  have hsome : ∃ g, (g, true) ∈ e := by
    obtain ⟨⟨_, b⟩, hmem, rfl⟩ :=
      List.mem_map.mp (h.listeners.awaited f hk (by rw [hpc]; rfl))
    cases b with
    | true => exact ⟨_, hmem⟩
    | false =>
      rcases h.one hwanted ⟨_, hmem⟩ with htrue | ⟨g, hg⟩
      · exact htrue
      · exact absurd hg (howes g)
  obtain ⟨g, hg⟩ := hsome
  obtain ⟨hkind, hlis⟩ := h.listeners.owner g (List.mem_map_of_mem (f := Prod.fst) hg)
  refine ⟨g, hkind, (hq g).resolve_right fun hdone => ?_, hg⟩
  rw [hdone] at hlis
  cases hlis

end Quiescent

/-- Where nobody is about to act: all streams and one receiver are notified of a message
or of the close, and one sender of the room or of the close. -/
theorem no_missed_wakeup (capacity : Option Nat) {s : Channel α}
    (h : (system capacity).Reachable s) (hq : s.Quiescent) :
    ((s.queue ≠ [] ∨ s.closed = true) →
      (∀ f, (s.calls f).kind = .next → (s.calls f).pc = .suspended → (f, true) ∈ s.streamOps) ∧
      ((∃ f, (s.calls f).kind = .recv ∧ (s.calls f).pc = .suspended) →
        ∃ f, (s.calls f).kind = .recv ∧ (s.calls f).pc = .suspended ∧ (f, true) ∈ s.recvOps)) ∧
    ((s.closed = true ∨ ¬s.isFull) →
      (∃ f msg, (s.calls f).kind = .send msg ∧ (s.calls f).pc = .suspended) →
        ∃ f msg, (s.calls f).kind = .send msg ∧ (s.calls f).pc = .suspended ∧
          (f, true) ∈ s.sendOps) := by
  have hinv := inv_reachable h
  have hclosesSend : ∀ f, ¬(s.calls f).closesSend := by
    intro f
    rcases hq f with hpc | hpc <;> simp [Call.closesSend, hpc]
  have hclosesRecv : ∀ f, ¬(s.calls f).closesRecv := by
    intro f
    rcases hq f with hpc | hpc <;> simp [Call.closesRecv, hpc]
  refine ⟨fun hwork => ⟨fun f hk hpc => ?_, fun ⟨f, hk, hpc⟩ => ?_⟩,
    fun hwork ⟨f, msg, hk, hpc⟩ => ?_⟩
  · refine hinv.stream.all_notified hwork (fun g => ?_) (by rw [hk]; rfl) hpc
    rcases hq g with hg | hg <;> simp [Call.owesStream, hg]
  · rcases hwork with hwork | hwork
    · obtain ⟨g, hkg, hg⟩ := hinv.recv.one_notified hwork
        (fun g => by rcases hq g with hg | hg <;> simp [Call.owesRecv, hg]) hq
        (by rw [hk]; rfl) hpc
      exact ⟨g, kind_of_isRecv hkg, hg⟩
    · exact ⟨f, hk, hpc, hinv.recv.all_notified hwork hclosesRecv (by rw [hk]; rfl) hpc⟩
  · by_cases hclosed : s.closed = true
    · exact ⟨f, msg, hk, hpc,
        hinv.send.all_notified hclosed hclosesSend (by rw [hk]; rfl) hpc⟩
    · have hroom := hwork.resolve_left hclosed
      obtain ⟨g, hkg, hg⟩ := hinv.send.one_notified ⟨hroom, by simpa using hclosed⟩
        (fun g => by rcases hq g with hg | hg <;> simp [Call.owesSend, hg]) hq
        (by rw [hk]; rfl) hpc
      obtain ⟨msg', hmsg⟩ := kind_of_isSend hkg
      exact ⟨g, msg', hmsg, hg⟩

/-- A `recv` suspends on an empty channel of capacity 1 and `try_send` comes. -/
def recvThenTrySend : List (Act Nat) :=
  [.start 0 .recv, .step 0, .step 0, .step 0, .step 0, .start 1 (.trySend 7),
    .step 1, .step 1, .step 1, .step 1]

theorem no_missed_wakeup_recv : ∃ s : Channel Nat, (system (some 1)).Reachable s ∧
    s.queue = [7] ∧ (∃ f, (s.calls f).kind = .recv ∧ (s.calls f).pc = .suspended) ∧
    ∃ f, (s.calls f).kind = .recv ∧ (s.calls f).pc = .suspended ∧ (f, true) ∈ s.recvOps := by
  let s := ((system (some 1)).run recvThenTrySend).get (by decide)
  have hs : (system (some 1)).Reachable s := System.reachable_of_run recvThenTrySend (by simp [s])
  have hq : s.Quiescent := by
    intro f
    match f with
    | 0 => exact .inl rfl
    | 1 => exact .inr rfl
    | n + 2 => exact .inr rfl
  have hrecv : ∃ f, (s.calls f).kind = .recv ∧ (s.calls f).pc = .suspended := ⟨0, rfl, rfl⟩
  exact ⟨s, hs, rfl, hrecv, ((no_missed_wakeup (some 1) hs hq).1 (.inl (by decide))).2 hrecv⟩

end Cynthia.Channels
