import Cynthia.Blocking.UnblockStream
import Mathlib.Data.List.Induction

/-! `Unblock` as a stream keeps the order of its iterator, reads ahead no further than its
channel, and does not sleep on an item. -/

namespace Cynthia.Blocking.UnblockStream

open Transition Channels

variable {α : Type}

/-! ## Steps of the channel -/

/-- The call has no outcome yet. -/
def early : Channels.Pc → Bool
  | .attempt | .listen | .await | .suspended => true
  | _ => false

/-- All but the queue and the call `f` stay. -/
structure Beside (f : Nat) (ch ch' : Channel α) : Prop where
  capacity : ch'.capacity = ch.capacity
  senders : ch'.senderCount = ch.senderCount
  receivers : ch'.receiverCount = ch.receiverCount
  others : ∀ g, g ≠ f → ch'.calls g = ch.calls g
  kind : (ch'.calls f).kind = (ch.calls f).kind

section Steps

variable {ch ch' : Channel α} {f : Nat}

/-- The call `f` goes on without an operation on the queue that succeeds. -/
structure Stays (f : Nat) (ch ch' : Channel α) : Prop where
  beside : Beside f ch ch'
  queue : ch'.queue = ch.queue
  closed : ch'.closed = ch.closed
  out : (ch'.calls f).out = (ch.calls f).out
  early : early (ch'.calls f).pc = early (ch.calls f).pc

theorem exec_stays (h : ch.exec f = some ch') (hpc : (ch.calls f).pc ≠ .attempt) :
    Stays f ch ch' := by
  unfold Channel.exec at h
  cases hp : (ch.calls f).pc <;> simp only [hp] at h hpc
  case attempt => exact absurd rfl hpc
  case suspended | done => cases h
  all_goals
    simp only [Option.some.injEq] at h
    subst h
    cases hk : (ch.calls f).kind <;> simp only [Channel.setEvent] <;> (try split) <;>
      refine ⟨⟨?_, ?_, ?_, ?_, ?_⟩, ?_, ?_, ?_, ?_⟩ <;>
      simp +contextual [Channel.goto, Channel.setCall, UnblockStream.early, hk, hp]

theorem exec_active (h : ch.exec f = some ch') :
    (ch.calls f).pc ≠ .done ∧ (ch.calls f).pc ≠ .suspended := by
  constructor <;>
    · intro hp
      simp only [Channel.exec, hp] at h
      cases h

/-- The queue is full or empty. -/
theorem retry_stays (hpc : (ch.calls f).pc = .attempt) : Stays f ch (ch.retry f) := by
  unfold Channel.retry
  split <;> refine ⟨⟨?_, ?_, ?_, ?_, ?_⟩, ?_, ?_, ?_, ?_⟩ <;>
    simp +contextual [Channel.goto, Channel.setCall, early, hpc]

theorem attempt_send {x : α} (hpc : (ch.calls f).pc = .attempt)
    (hk : (ch.calls f).kind = .send x) :
    Stays f ch (ch.attempt f) ∨ Beside f ch (ch.attempt f) ∧
      early ((ch.attempt f).calls f).pc = false ∧ (ch.attempt f).closed = ch.closed ∧
      (((ch.attempt f).calls f).out = some (.sendClosed x) ∧ ch.closed = true ∧
          (ch.attempt f).queue = ch.queue ∨
        ((ch.attempt f).calls f).out = some .sent ∧ (ch.attempt f).queue = ch.queue ++ [x]) := by
  simp only [Channel.attempt, hk]
  split
  · refine .inr ⟨⟨?_, ?_, ?_, ?_, ?_⟩, ?_, ?_, .inl ?_⟩ <;>
      simp_all +contextual [Channel.finish, Channel.setCall, early]
  · split
    · exact .inl (retry_stays hpc)
    · refine .inr ⟨⟨?_, ?_, ?_, ?_, ?_⟩, ?_, ?_, .inr ?_⟩ <;>
        simp_all +contextual [Channel.finish, Channel.setCall, early]

theorem attempt_next (hpc : (ch.calls f).pc = .attempt) (hk : (ch.calls f).kind = .next) :
    Stays f ch (ch.attempt f) ∨ Beside f ch (ch.attempt f) ∧
      early ((ch.attempt f).calls f).pc = false ∧ (ch.attempt f).closed = ch.closed ∧
      (((ch.attempt f).calls f).out = some .recvClosed ∧ ch.closed = true ∧ ch.queue = [] ∧
          (ch.attempt f).queue = ch.queue ∨
        ∃ msg, ((ch.attempt f).calls f).out = some (.received msg) ∧
          ch.queue = msg :: (ch.attempt f).queue) := by
  simp only [Channel.attempt, hk]
  split
  · rename_i msg _ _
    refine .inr ⟨⟨?_, ?_, ?_, ?_, ?_⟩, ?_, ?_, .inr ⟨msg, ?_⟩⟩ <;>
      simp_all +contextual [Channel.finish, Channel.setCall, early]
  · split
    · refine .inr ⟨⟨?_, ?_, ?_, ?_, ?_⟩, ?_, ?_, .inl ?_⟩ <;>
        simp_all +contextual [Channel.finish, Channel.setCall, early]
    · exact .inl (retry_stays hpc)

theorem attempt_close (hk : (ch.calls f).kind = .close) :
    Beside f ch (ch.attempt f) ∧ early ((ch.attempt f).calls f).pc = false ∧
      (ch.attempt f).closed = true ∧ (ch.attempt f).queue = ch.queue := by
  simp only [Channel.attempt, hk]
  split <;> refine ⟨⟨?_, ?_, ?_, ?_, ?_⟩, ?_, ?_, ?_⟩ <;>
    simp_all +contextual [Channel.finish, Channel.setCall, early]

theorem start_beside {kind : Kind α} (h : ch.start f kind = some ch') :
    (ch.calls f).pc = .done ∧ ch' = ch.setCall f ⟨kind, .attempt, none⟩ := by
  unfold Channel.start at h
  split at h <;> cases h
  exact ⟨‹_›, rfl⟩

end Steps

/-! ## The channel between the two sides -/

/-- Whether the last answer of the iterator is not in the channel: it is with the call of
`send`, or has ended the loop. -/
def unsettled (ch : Channel α) : TaskPc → Nat
  | .next => 0
  | .send =>
    match (ch.calls 0).out with
    | some .sent => 0
    | _ => 1
  | .leave | .close | .done => 1

/-- What the call of `poll_next` has received and is about to return. -/
def hand (pc : Pc) (ch : Channel α) : List α :=
  match pc, (ch.calls 1).out with
  | .receive, some (.received msg) => [msg]
  | _, _ => []

def Pc.stops : Pc → Bool
  | .stop _ => true
  | _ => false

def TaskPc.left : TaskPc → Bool
  | .leave | .close | .done => true
  | _ => false

def TaskPc.closed : TaskPc → Bool
  | .close | .done => true
  | _ => false

/-- The channel, its handles and the calls that are in use: those of the task are `send`, 0, and
`close`, 2; those of the front are `poll_next`, 1, and `close`, 3. -/
structure Shape (cap : Nat) (receiver : Bool) (ch : Channel α) (task : TaskPc) : Prop where
  inv : Channels.Inv ch
  capacity : ch.capacity = some cap
  senders : ch.senderCount = if task.closed then 0 else 1
  receivers : ch.receiverCount = if receiver then 1 else 0
  others : ∀ g, 4 ≤ g → (ch.calls g).pc = .done

structure TaskCalls (iter : Nat → Option α) (asked : Nat) (ch : Channel α) (task : TaskPc) :
    Prop where
  noSend : task ≠ .send → (ch.calls 0).pc = .done
  noClose : task ≠ .close → (ch.calls 2).pc = .done
  closeKind : (ch.calls 2).pc = .done ∨ (ch.calls 2).kind = .close
  sendKind : task = .send → ∃ x, (ch.calls 0).kind = .send x ∧ iter (asked - 1) = some x
  sendEarly : task = .send → early (ch.calls 0).pc = true → (ch.calls 0).out = none
  sendLate : task = .send → early (ch.calls 0).pc = false →
    (ch.calls 0).out = some .sent ∨ ch.closed = true
  closeLate : task.closed = true → early (ch.calls 2).pc = false → ch.closed = true

structure FrontCalls (pc : Pc) (pending receiver : Bool) (ch : Channel α) : Prop where
  noDrop : pc.stops = false ∨ receiver = true → (ch.calls 3).pc = .done
  nextKind : (ch.calls 1).pc = .done ∨ (ch.calls 1).kind = .next
  dropKind : (ch.calls 3).pc = .done ∨ (ch.calls 3).kind = .close
  receives : pc = .receive → receiver = true
  nextEarly : early (ch.calls 1).pc = true → (ch.calls 1).out = none
  nextLate : pc = .receive → early (ch.calls 1).pc = false →
    (∃ msg, (ch.calls 1).out = some (.received msg)) ∨ ch.closed = true ∧ ch.queue = []
  nextPc : pc ≠ .receive → (ch.calls 1).pc = .suspended ∨ (ch.calls 1).pc = .done ∨
    (ch.calls 1).pc = .finish ∧ pc.stops = true ∧ receiver = false
  rests : pc.stops = false → receiver = false → (ch.calls 1).pc = .done
  ended : pc = .ended →
    receiver = true ∧ ch.closed = true ∧ ch.queue = [] ∧ (ch.calls 1).pc = .done
  dropped : receiver = false → early (ch.calls 3).pc = false → ch.closed = true
  waiting : pending = true → pc = .rest ∧
    (receiver = true → (ch.calls 1).pc = .suspended ∨ ch.closed = true)

/-- The answers of the iterator from number `passed` on are in the hand of `poll_next`, in the
queue, and with the task. -/
structure Content (iter : Nat → Option α) (pc : Pc) (passed asked : Nat) (receiver : Bool)
    (ch : Channel α) (task : TaskPc) : Prop where
  closedBy : ch.closed = true → receiver = true → task.closed = true
  ends : task.left = true → receiver = true → iter (asked - 1) = none
  count : passed + (hand pc ch).length + ch.queue.length + unsettled ch task = asked
  order : (hand pc ch ++ ch.queue).map some =
    (List.range' passed ((hand pc ch).length + ch.queue.length)).map iter

structure Line (cap : Nat) (iter : Nat → Option α) (pc : Pc) (pending : Bool) (passed asked : Nat)
    (receiver : Bool) (ch : Channel α) (task : TaskPc) : Prop extends
    Shape cap receiver ch task, TaskCalls iter asked ch task, FrontCalls pc pending receiver ch,
    Content iter pc passed asked receiver ch task

section Line

variable {cap : Nat} {iter : Nat → Option α} {pc pc' : Pc} {pending receiver receiver' : Bool}
  {passed asked : Nat} {ch ch' : Channel α} {task task' : TaskPc} {f : Nat}

theorem hand_congr (pc : Pc) (hout : (ch'.calls 1).out = (ch.calls 1).out) :
    hand pc ch' = hand pc ch := by
  simp only [hand, hout]

theorem unsettled_congr (task : TaskPc) (hout : (ch'.calls 0).out = (ch.calls 0).out) :
    unsettled ch' task = unsettled ch task := by
  simp only [unsettled, hout]

theorem Line.inv_exec (h : Line cap iter pc pending passed asked receiver ch task)
    (ht : ch.exec f = some ch') : Channels.Inv ch' :=
  Channels.inv_step h.inv (a := .step f) ht

/-! ### What a step leaves -/

theorem Shape.beside (h : Shape cap receiver ch task) (hinv : Channels.Inv ch')
    (hb : Beside f ch ch') (hf : f < 4) : Shape cap receiver ch' task where
  inv := hinv
  capacity := hb.capacity.trans h.capacity
  senders := hb.senders.trans h.senders
  receivers := hb.receivers.trans h.receivers
  others g hg := by
    rw [hb.others g (by omega)]
    exact h.others g hg

/-- The task moves on, and does not drop or keep its sender. -/
theorem Shape.move (h : Shape cap receiver ch task) (htask : task'.closed = task.closed) :
    Shape cap receiver ch task' where
  inv := h.inv
  capacity := h.capacity
  senders := by
    rw [htask]
    exact h.senders
  receivers := h.receivers
  others := h.others

/-- The task is at no call. -/
theorem TaskCalls.resting (hsend : task ≠ .send) (h0 : (ch.calls 0).pc = .done)
    (h2 : (ch.calls 2).pc = .done)
    (hclosed : task.closed = true → ch.closed = true) : TaskCalls iter asked ch task where
  noSend _ := h0
  noClose _ := h2
  closeKind := .inl h2
  sendKind ht := absurd ht hsend
  sendEarly ht := absurd ht hsend
  sendLate ht := absurd ht hsend
  closeLate ht _ := hclosed ht

theorem TaskCalls.sending (h2 : (ch.calls 2).pc = .done)
    (hkind : ∃ x, (ch.calls 0).kind = .send x ∧ iter (asked - 1) = some x)
    (hearly : early (ch.calls 0).pc = true → (ch.calls 0).out = none)
    (hlate : early (ch.calls 0).pc = false → (ch.calls 0).out = some .sent ∨ ch.closed = true) :
    TaskCalls iter asked ch .send where
  noSend ht := absurd rfl ht
  noClose _ := h2
  closeKind := .inl h2
  sendKind _ := hkind
  sendEarly _ := hearly
  sendLate _ := hlate
  closeLate := nofun

theorem TaskCalls.closing (h0 : (ch.calls 0).pc = .done)
    (hkind : (ch.calls 2).pc = .done ∨ (ch.calls 2).kind = .close)
    (hlate : early (ch.calls 2).pc = false → ch.closed = true) :
    TaskCalls iter asked ch .close where
  noSend _ := h0
  noClose ht := absurd rfl ht
  closeKind := hkind
  sendKind := nofun
  sendEarly := nofun
  sendLate := nofun
  closeLate _ := hlate

/-- The call of `poll_next` on the receiver has been made. -/
theorem FrontCalls.receiving (h3 : (ch.calls 3).pc = .done) (hkind : (ch.calls 1).kind = .next)
    (hearly : early (ch.calls 1).pc = true → (ch.calls 1).out = none)
    (hlate : early (ch.calls 1).pc = false →
      (∃ msg, (ch.calls 1).out = some (.received msg)) ∨ ch.closed = true ∧ ch.queue = []) :
    FrontCalls .receive false true ch where
  noDrop _ := h3
  nextKind := .inr hkind
  dropKind := .inl h3
  receives _ := rfl
  nextEarly := hearly
  nextLate _ := hlate
  nextPc hpc := absurd rfl hpc
  rests _ := nofun
  ended := nofun
  dropped := nofun
  waiting := nofun

/-- `poll_stop` has dropped the receiver. -/
theorem FrontCalls.stopping (hstops : pc.stops = true)
    (hkind : (ch.calls 1).pc = .done ∨ (ch.calls 1).kind = .next)
    (hdrop : (ch.calls 3).pc = .done ∨ (ch.calls 3).kind = .close)
    (hearly : early (ch.calls 1).pc = true → (ch.calls 1).out = none)
    (hnext : (ch.calls 1).pc = .suspended ∨ (ch.calls 1).pc = .done ∨ (ch.calls 1).pc = .finish)
    (hdropped : early (ch.calls 3).pc = false → ch.closed = true) :
    FrontCalls pc false false ch where
  noDrop hpc := by simp [hstops] at hpc
  nextKind := hkind
  dropKind := hdrop
  receives hpc := by
    rw [hpc] at hstops
    cases hstops
  nextEarly := hearly
  nextLate hpc := by
    rw [hpc] at hstops
    cases hstops
  nextPc _ := hnext.imp_right (Or.imp_right fun hfinish => ⟨hfinish, hstops, rfl⟩)
  rests hpc := by simp [hstops] at hpc
  ended hpc := by
    rw [hpc] at hstops
    cases hstops
  dropped _ := hdropped
  waiting := nofun

/-- No call of `poll_next` or `get_mut` is at the channel. -/
theorem FrontCalls.resting (hpc : pc = .rest ∨ pc = .top ∨ pc = .ended)
    (h3 : (ch.calls 3).pc = .done) (hkind : (ch.calls 1).pc = .done ∨ (ch.calls 1).kind = .next)
    (hearly : early (ch.calls 1).pc = true → (ch.calls 1).out = none)
    (hnext : receiver = true ∧ (ch.calls 1).pc = .suspended ∨ (ch.calls 1).pc = .done)
    (hdropped : receiver = false → ch.closed = true)
    (hended : pc = .ended →
      receiver = true ∧ ch.closed = true ∧ ch.queue = [] ∧ (ch.calls 1).pc = .done)
    (hwaiting : pending = true → pc = .rest ∧
      (receiver = true → (ch.calls 1).pc = .suspended ∨ ch.closed = true)) :
    FrontCalls pc pending receiver ch where
  noDrop _ := h3
  nextKind := hkind
  dropKind := .inl h3
  receives hr := by simp [hr] at hpc
  nextEarly := hearly
  nextLate hr := by simp [hr] at hpc
  nextPc _ := (hnext.imp_left And.right).imp_right .inl
  rests _ hr := hnext.resolve_left fun hsusp => by simp [hr] at hsusp
  ended := hended
  dropped hr _ := hdropped hr
  waiting := hwaiting

theorem FrontCalls.not_pending (h : FrontCalls pc pending receiver ch) (hpc : pc ≠ .rest) :
    pending = false :=
  Bool.eq_false_iff.mpr fun hp => hpc (h.waiting hp).1

/-- The calls of the task stay, and so does the mark that the channel is closed. -/
theorem TaskCalls.congr (h : TaskCalls iter asked ch task) (h0 : ch'.calls 0 = ch.calls 0)
    (h2 : ch'.calls 2 = ch.calls 2) (hclosed : ch.closed = true → ch'.closed = true) :
    TaskCalls iter asked ch' task where
  noSend := by
    rw [h0]
    exact h.noSend
  noClose := by
    rw [h2]
    exact h.noClose
  closeKind := by
    rw [h2]
    exact h.closeKind
  sendKind := by
    rw [h0]
    exact h.sendKind
  sendEarly := by
    rw [h0]
    exact h.sendEarly
  sendLate := by
    rw [h0]
    exact fun htask hlate => (h.sendLate htask hlate).imp_right hclosed
  closeLate := by
    rw [h2]
    exact fun htask hlate => hclosed (h.closeLate htask hlate)

/-- The calls of the front stay, and so do the mark and what was left in a closed channel. -/
theorem FrontCalls.congr (h : FrontCalls pc pending receiver ch) (h1 : ch'.calls 1 = ch.calls 1)
    (h3 : ch'.calls 3 = ch.calls 3) (hclosed : ch.closed = true → ch'.closed = true)
    (hqueue : ch.closed = true → receiver = true → ch'.queue = ch.queue) :
    FrontCalls pc pending receiver ch' where
  noDrop := by
    rw [h3]
    exact h.noDrop
  nextKind := by
    rw [h1]
    exact h.nextKind
  dropKind := by
    rw [h3]
    exact h.dropKind
  receives := h.receives
  nextEarly := by
    rw [h1]
    exact h.nextEarly
  nextLate := by
    rw [h1]
    intro hpc hlate
    refine (h.nextLate hpc hlate).imp_right fun ⟨hc, hnil⟩ => ⟨hclosed hc, ?_⟩
    rw [hqueue hc (h.receives hpc), hnil]
  nextPc := by
    rw [h1]
    exact h.nextPc
  rests := by
    rw [h1]
    exact h.rests
  ended := by
    rw [h1]
    intro hpc
    obtain ⟨hr, hc, hnil, hdone⟩ := h.ended hpc
    exact ⟨hr, hclosed hc, (hqueue hc hr).trans hnil, hdone⟩
  dropped := by
    rw [h3]
    exact fun hr hlate => hclosed (h.dropped hr hlate)
  waiting := by
    rw [h1]
    exact fun hp => (h.waiting hp).imp_right fun hwaits hr => (hwaits hr).imp_right hclosed

theorem Content.congr (h : Content iter pc passed asked receiver ch task)
    (hitems : hand pc' ch' ++ ch'.queue = hand pc ch ++ ch.queue)
    (huns : unsettled ch' task' = unsettled ch task)
    (hclosed : ch'.closed = true → receiver' = true → task'.closed = true)
    (hends : task'.left = true → receiver' = true → iter (asked - 1) = none) :
    Content iter pc' passed asked receiver' ch' task' where
  closedBy := hclosed
  ends := hends
  count := by
    have hlen := congrArg List.length hitems
    have hcount := h.count
    simp only [List.length_append] at hlen
    omega
  order := by
    rw [← List.length_append, hitems, List.length_append]
    exact h.order

/-! ### Steps of the calls -/

theorem Stays.out_eq (hs : Stays f ch ch') (g : Nat) : (ch'.calls g).out = (ch.calls g).out := by
  by_cases hg : g = f
  · rw [hg]
    exact hs.out
  · rw [hs.beside.others g hg]

theorem TaskCalls.stays (h : TaskCalls iter asked ch task) (hs : Stays f ch ch')
    (hactive : (ch.calls f).pc ≠ .done)
    (hrole : f = 0 ∧ task = .send ∨ f = 2 ∧ task = .close ∨ f ≠ 0 ∧ f ≠ 2) :
    TaskCalls iter asked ch' task := by
  obtain ⟨⟨-, -, -, b4, b5⟩, -, hc, hout, hearly⟩ := hs
  rcases hrole with ⟨rfl, rfl⟩ | ⟨rfl, rfl⟩ | ⟨h0, h2⟩
  · have h2 := b4 2 (by decide)
    refine .sending (by rw [h2]; exact h.noClose nofun) (by rw [b5]; exact h.sendKind rfl) ?_ ?_
    · rw [hearly, hout]
      exact h.sendEarly rfl
    · rw [hearly, hout, hc]
      exact h.sendLate rfl
  · have h0 := b4 0 (by decide)
    refine .closing (by rw [h0]; exact h.noSend nofun) (.inr ?_) ?_
    · rw [b5]
      exact h.closeKind.resolve_left hactive
    · rw [hearly, hc]
      exact h.closeLate rfl
  · exact h.congr (b4 0 h0.symm) (b4 2 h2.symm) (by rw [hc]; exact id)

/-- The call of `poll_next` that is dropped is done with it. -/
theorem FrontCalls.stays (h : FrontCalls pc pending receiver ch) (hs : Stays f ch ch')
    (hactive : (ch.calls f).pc ≠ .done)
    (hrole : f = 1 ∧ pc = .receive ∨
      f = 1 ∧ pc.stops = true ∧ receiver = false ∧
        ((ch'.calls 1).pc = .finish ∨ (ch'.calls 1).pc = .done) ∨
      f = 3 ∧ pc.stops = true ∧ receiver = false ∨ f ≠ 1 ∧ f ≠ 3) :
    FrontCalls pc pending receiver ch' := by
  obtain ⟨⟨-, -, -, b4, b5⟩, hq, hc, hout, hearly⟩ := hs
  rcases hrole with ⟨rfl, rfl⟩ | ⟨rfl, hp, rfl, hnext⟩ | ⟨rfl, hp, rfl⟩ | ⟨h1, h3⟩
  · have h3 := b4 3 (by decide)
    obtain rfl := h.receives rfl
    obtain rfl := h.not_pending nofun
    refine .receiving (by rw [h3]; exact h.noDrop (.inr rfl)) ?_ ?_ ?_
    · rw [b5]
      exact h.nextKind.resolve_left hactive
    · rw [hearly, hout]
      exact h.nextEarly
    · rw [hearly, hout, hc, hq]
      exact h.nextLate rfl
  · have h3 := b4 3 (by decide)
    obtain rfl := h.not_pending fun hr => by simp [hr, Pc.stops] at hp
    refine .stopping hp (.inr ?_) (by rw [h3]; exact h.dropKind) ?_ (.inr hnext.symm) ?_
    · rw [b5]
      exact h.nextKind.resolve_left hactive
    · rw [hearly, hout]
      exact h.nextEarly
    · rw [h3, hc]
      exact h.dropped rfl
  · have h1 := b4 1 (by decide)
    obtain rfl := h.not_pending fun hr => by simp [hr, Pc.stops] at hp
    have hnext := h.nextPc fun hr => by simp [hr, Pc.stops] at hp
    refine .stopping hp (by rw [h1]; exact h.nextKind) (.inr ?_) ?_ ?_ ?_
    · rw [b5]
      exact h.dropKind.resolve_left hactive
    · rw [h1]
      exact h.nextEarly
    · rw [h1]
      exact hnext.imp_right (Or.imp_right And.left)
    · rw [hearly, hc]
      exact h.dropped rfl
  · exact h.congr (b4 1 h1.symm) (b4 3 h3.symm) (by rw [hc]; exact id) fun _ _ => hq

/-- A call goes on. -/
theorem Line.stays (h : Line cap iter pc pending passed asked receiver ch task)
    (hinv : Channels.Inv ch') (hs : Stays f ch ch') (hactive : (ch.calls f).pc ≠ .done)
    (hrole : f = 0 ∧ task = .send ∨ f = 1 ∧ pc = .receive ∨
      f = 1 ∧ pc.stops = true ∧ receiver = false ∧
        ((ch'.calls 1).pc = .finish ∨ (ch'.calls 1).pc = .done) ∨
      f = 2 ∧ task = .close ∨ f = 3 ∧ pc.stops = true ∧ receiver = false) :
    Line cap iter pc pending passed asked receiver ch' task := by
  refine ⟨h.toShape.beside hinv hs.beside (by omega), h.toTaskCalls.stays hs hactive ?_,
    h.toFrontCalls.stays hs hactive ?_, h.toContent.congr ?_ ?_ ?_ h.ends⟩
  · rcases hrole with hx | ⟨rfl, -⟩ | ⟨rfl, -⟩ | hx | ⟨rfl, -⟩
    · exact .inl hx
    · exact .inr (.inr (by decide))
    · exact .inr (.inr (by decide))
    · exact .inr (.inl hx)
    · exact .inr (.inr (by decide))
  · rcases hrole with ⟨rfl, -⟩ | hx | hx | ⟨rfl, -⟩ | hx
    · exact .inr (.inr (.inr (by decide)))
    · exact .inl hx
    · exact .inr (.inl hx)
    · exact .inr (.inr (.inr (by decide)))
    · exact .inr (.inr (.inl hx))
  · rw [hand_congr pc (hs.out_eq 1), hs.queue]
  · exact unsettled_congr task (hs.out_eq 0)
  · rw [hs.closed]
    exact h.closedBy

/-- A step of the call of `poll_next`. -/
theorem Line.receive (h : Line cap iter .receive pending passed asked receiver ch task)
    (ht : ch.exec 1 = some ch') :
    Line cap iter .receive pending passed asked receiver ch' task := by
  have hinv := h.inv_exec ht
  have hactive := exec_active ht
  by_cases hpc : (ch.calls 1).pc = .attempt
  · have hnone := h.nextEarly (by rw [hpc]; rfl)
    have hhand : hand .receive ch = [] := by simp only [hand, hnone]
    rw [Channel.exec, hpc] at ht
    cases ht
    rcases attempt_next hpc (h.nextKind.resolve_left hactive.1) with hstays |
        ⟨hbeside, hearly, hc, hres⟩
    · exact h.stays hinv hstays hactive.1 (.inr (.inl ⟨rfl, rfl⟩))
    · have h3 := hbeside.others 3 (by decide)
      have hkind := hbeside.kind
      have hr := h.receives rfl
      have hfront := h.toFrontCalls
      refine ⟨h.toShape.beside hinv hbeside (by decide),
        h.toTaskCalls.congr (hbeside.others 0 (by decide)) (hbeside.others 2 (by decide))
          (by rw [hc]; exact id), ?_, h.toContent.congr ?_ ?_ (by rw [hc]; exact h.closedBy) h.ends⟩
      · obtain rfl := hr
        obtain rfl := hfront.not_pending (by simp)
        refine .receiving (by rw [h3]; exact hfront.noDrop (.inr rfl)) ?_ ?_ fun _ => ?_
        · rw [hkind]
          exact hfront.nextKind.resolve_left hactive.1
        · rw [hearly]
          intro hx
          cases hx
        · rcases hres with ⟨-, hclosed, hnil, hq⟩ | ⟨msg, hout, -⟩
          · exact .inr ⟨hc.trans hclosed, hq.trans hnil⟩
          · exact .inl ⟨msg, hout⟩
      · rcases hres with ⟨hout, -, -, hq⟩ | ⟨msg, hout, hq⟩
        · simp only [hand, hout, hnone, hq]
        · simp only [hand, hout, hnone, hq, List.nil_append, List.singleton_append]
      · exact unsettled_congr task (congrArg Call.out (hbeside.others 0 (by decide)))
  · exact h.stays hinv (exec_stays ht hpc) hactive.1 (.inr (.inl ⟨rfl, rfl⟩))

/-- A step of the call of `send`. -/
theorem Line.send (h : Line cap iter pc pending passed asked receiver ch .send)
    (ht : ch.exec 0 = some ch') : Line cap iter pc pending passed asked receiver ch' .send := by
  have hinv := h.inv_exec ht
  have hactive := exec_active ht
  obtain ⟨x, hkind, hx⟩ := h.sendKind rfl
  by_cases hpc : (ch.calls 0).pc = .attempt
  · have hnone := h.sendEarly rfl (by rw [hpc]; rfl)
    have huns : unsettled ch .send = 1 := by simp only [unsettled, hnone]
    rw [Channel.exec, hpc] at ht
    cases ht
    rcases attempt_send hpc hkind with hstays | ⟨hbeside, hearly, hc, hres⟩
    · exact h.stays hinv hstays hactive.1 (.inl ⟨rfl, rfl⟩)
    · have h2 := hbeside.others 2 (by decide)
      have hkind' := hbeside.kind
      have htask := h.toTaskCalls
      have hhand := hand_congr pc (congrArg Call.out (hbeside.others 1 (by decide)))
      refine ⟨h.toShape.beside hinv hbeside (by decide), ?_,
        h.toFrontCalls.congr (hbeside.others 1 (by decide)) (hbeside.others 3 (by decide))
          (by rw [hc]; exact id) fun hclosed hr => ?_, ?_⟩
      · refine .sending (by rw [h2]; exact htask.noClose (by simp)) ⟨x, hkind'.trans hkind, hx⟩ ?_ ?_
        · rw [hearly]
          intro hx
          cases hx
        · rintro -
          rcases hres with ⟨-, hclosed, -⟩ | ⟨hout, -⟩
          · exact .inr (hc.trans hclosed)
          · exact .inl hout
      · cases h.closedBy hclosed hr
      · rcases hres with ⟨hout, -, hq⟩ | ⟨hout, hq⟩
        · refine h.toContent.congr (by rw [hhand, hq]) ?_ (by rw [hc]; exact h.closedBy) h.ends
          simp only [unsettled, hout, hnone]
        · have huns' : unsettled (ch.attempt 0) .send = 0 := by simp only [unsettled, hout]
          have hcount := h.count
          rw [huns] at hcount
          have hnext : asked - 1 = passed + ((hand pc ch).length + ch.queue.length) := by omega
          refine ⟨by rw [hc]; exact h.closedBy, h.ends, ?_, ?_⟩
          · rw [hhand, hq, huns', List.length_append, List.length_singleton]
            omega
          · rw [hhand, hq, List.length_append, List.length_singleton, ← List.append_assoc,
              List.map_append, h.order, ← Nat.add_assoc, List.range'_1_concat, List.map_append,
              ← hnext, List.map_singleton, List.map_singleton, hx]
  · exact h.stays hinv (exec_stays ht hpc) hactive.1 (.inl ⟨rfl, rfl⟩)

/-- A step of a call of `close`. -/
theorem Line.closes (h : Line cap iter pc pending passed asked receiver ch task)
    (ht : ch.exec f = some ch')
    (hrole : f = 2 ∧ task = .close ∨ f = 3 ∧ pc.stops = true ∧ receiver = false) :
    Line cap iter pc pending passed asked receiver ch' task := by
  have hinv := h.inv_exec ht
  have hactive := exec_active ht
  by_cases hpc : (ch.calls f).pc = .attempt
  · have hkind : (ch.calls f).kind = .close := by
      rcases hrole with ⟨rfl, -⟩ | ⟨rfl, -⟩
      · exact h.closeKind.resolve_left hactive.1
      · exact h.dropKind.resolve_left hactive.1
    rw [Channel.exec, hpc] at ht
    cases ht
    obtain ⟨hbeside, hearly, hc, hq⟩ := attempt_close hkind
    have hkind' := hbeside.kind
    have hshape := h.toShape.beside hinv hbeside (by omega)
    have hclosed : (ch.attempt f).closed = true → receiver = true → task.closed = true := by
      rcases hrole with ⟨-, rfl⟩ | ⟨-, -, rfl⟩
      · exact fun _ _ => rfl
      · exact fun _ h => Bool.noConfusion h
    have hcontent : Content iter pc passed asked receiver (ch.attempt f) task := by
      refine h.toContent.congr ?_ ?_ hclosed h.ends
      · rw [hand_congr pc (congrArg Call.out (hbeside.others 1 (by omega))), hq]
      · exact unsettled_congr task (congrArg Call.out (hbeside.others 0 (by omega)))
    have htask := h.toTaskCalls
    have hfront := h.toFrontCalls
    rcases hrole with ⟨rfl, rfl⟩ | ⟨rfl, hp, rfl⟩
    · have h0 := hbeside.others 0 (by decide)
      refine ⟨hshape, ?_, hfront.congr (hbeside.others 1 (by decide)) (hbeside.others 3 (by decide))
        (fun _ => hc) fun _ _ => hq, hcontent⟩
      exact .closing (by rw [h0]; exact htask.noSend (by simp)) (.inr (hkind'.trans hkind)) fun _ => hc
    · have h1 := hbeside.others 1 (by decide)
      refine ⟨hshape, htask.congr (hbeside.others 0 (by decide)) (hbeside.others 2 (by decide))
        fun _ => hc, ?_, hcontent⟩
      obtain rfl := hfront.not_pending fun hr => by simp [hr, Pc.stops] at hp
      have hnext := hfront.nextPc fun hr => by simp [hr, Pc.stops] at hp
      rw [← h1] at hnext
      exact .stopping hp (by rw [h1]; exact hfront.nextKind) (.inr (hkind'.trans hkind))
        (by rw [h1]; exact hfront.nextEarly) (hnext.imp_right (Or.imp_right And.left)) fun _ => hc
  · exact h.stays hinv (exec_stays ht hpc) hactive.1 (.inr (.inr (.inr hrole)))

theorem setCall_of_ne {g : Nat} {call : Call α} (hg : g ≠ f) :
    (ch.setCall f call).calls g = ch.calls g :=
  Function.update_of_ne hg _ _

theorem setCall_self {call : Call α} : (ch.setCall f call).calls f = call :=
  Function.update_self ..

theorem Shape.setCall {call : Call α} (h : Shape cap receiver ch task)
    (hinv : Channels.Inv (ch.setCall f call)) (hf : f < 4) (htask : task'.closed = task.closed) :
    Shape cap receiver (ch.setCall f call) task' where
  inv := hinv
  capacity := h.capacity
  senders := by
    rw [htask]
    exact h.senders
  receivers := h.receivers
  others g hg := by
    rw [setCall_of_ne (by omega)]
    exact h.others g hg

/-! ### The background task -/

/-- The task has asked the iterator, and has its answer. -/
theorem Content.ask (h : Content iter pc passed asked receiver ch .next)
    (hhand : hand pc ch' = hand pc ch) (hq : ch'.queue = ch.queue) (hc : ch'.closed = ch.closed)
    (huns : unsettled ch' task' = 1) (hends : task'.left = true → iter asked = none) :
    Content iter pc passed (asked + 1) receiver ch' task' where
  closedBy hclosed hr := by
    rw [hc] at hclosed
    cases h.closedBy hclosed hr
  ends hleft _ := hends hleft
  count := by
    have hcount : passed + (hand pc ch).length + ch.queue.length + 0 = asked := h.count
    rw [hhand, hq, huns]
    omega
  order := by
    rw [hhand, hq]
    exact h.order

theorem Line.startSend {x : α} (h : Line cap iter pc pending passed asked receiver ch .next)
    (hx : iter asked = some x) (ht : Channels.step ch (.start 0 (.send x)) = some ch') :
    Line cap iter pc pending passed (asked + 1) receiver ch' .send := by
  have hinv := Channels.inv_step h.inv ht
  obtain ⟨-, rfl⟩ := start_beside ht
  have h0 : (ch.setCall 0 ⟨.send x, .attempt, none⟩).calls 0 = ⟨.send x, .attempt, none⟩ :=
    setCall_self
  have h2 : (ch.setCall 0 ⟨.send x, .attempt, none⟩).calls 2 = ch.calls 2 :=
    setCall_of_ne (by decide)
  have htask := h.toTaskCalls
  refine ⟨h.toShape.setCall hinv (by decide) rfl, ?_,
    h.toFrontCalls.congr (setCall_of_ne (by decide)) (setCall_of_ne (by decide)) id fun _ _ => rfl,
    h.toContent.ask (hand_congr pc rfl) rfl rfl ?_ nofun⟩
  · refine .sending (by rw [h2]; exact htask.noClose nofun) ⟨x, by rw [h0], hx⟩ ?_ ?_
    · rw [h0]
      exact fun _ => rfl
    · rw [h0]
      nofun
  · simp only [unsettled, h0]

theorem Line.leave (h : Line cap iter pc pending passed asked receiver ch .next)
    (hx : iter asked = none) : Line cap iter pc pending passed (asked + 1) receiver ch .leave := by
  exact ⟨h.toShape.move rfl, .resting nofun (h.noSend nofun) (h.noClose nofun) nofun,
    h.toFrontCalls, h.toContent.ask rfl rfl rfl rfl fun _ => hx⟩

theorem Line.sent (h : Line cap iter pc pending passed asked receiver ch .send)
    (hdone : (ch.calls 0).pc = .done) (hout : (ch.calls 0).out = some .sent) :
    Line cap iter pc pending passed asked receiver ch .next := by
  refine ⟨h.toShape.move rfl, .resting nofun hdone (h.noClose nofun) nofun,
    h.toFrontCalls, h.toContent.congr rfl ?_ h.closedBy nofun⟩
  simp only [unsettled, hout]

theorem Line.refused (h : Line cap iter pc pending passed asked receiver ch .send)
    (hdone : (ch.calls 0).pc = .done) (hout : (ch.calls 0).out ≠ some .sent) :
    Line cap iter pc pending passed asked receiver ch .leave := by
  have hclosed := (h.sendLate rfl (by rw [hdone]; rfl)).resolve_left hout
  refine ⟨h.toShape.move rfl, .resting nofun hdone (h.noClose nofun) nofun,
    h.toFrontCalls, h.toContent.congr rfl ?_ h.closedBy fun _ hr => ?_⟩
  · simp only [unsettled]
  · cases h.closedBy hclosed hr

theorem Line.pollSend (h : Line cap iter pc pending passed asked receiver ch .send)
    (ht : Channels.step ch (.poll 0) = some ch') :
    Line cap iter pc pending passed asked receiver ch' .send := by
  have hinv := Channels.inv_step h.inv ht
  simp only [Channels.step] at ht
  split at ht <;> cases ht
  rename_i hpc
  refine h.stays hinv ⟨⟨rfl, rfl, rfl, ?_, ?_⟩, rfl, rfl, ?_, ?_⟩ (by simp [hpc]) (.inl ⟨rfl, rfl⟩)
  · exact fun g hne => Function.update_of_ne hne _ _
  all_goals simp [Channel.goto, Channel.setCall, hpc, early]

theorem Line.dropSender (h : Line cap iter pc pending passed asked receiver ch .leave)
    (ht : Channels.step ch (.dropSender 2) = some ch') :
    Line cap iter pc pending passed asked receiver ch' .close := by
  have hinv := Channels.inv_step h.inv ht
  have hone : ch.senderCount = 1 := h.senders
  simp only [Channels.step, hone, Nat.one_ne_zero, ↓reduceIte] at ht
  obtain ⟨-, rfl⟩ := start_beside ht
  have htask := h.toTaskCalls
  refine ⟨⟨hinv, h.capacity, rfl, h.receivers, fun g hg => ?_⟩, ?_,
    h.toFrontCalls.congr (setCall_of_ne (by decide)) (setCall_of_ne (by decide)) id fun _ _ => rfl,
    h.toContent.congr rfl rfl (fun _ _ => rfl) fun _ => h.ends rfl⟩
  · rw [setCall_of_ne (by omega)]
    exact h.others g hg
  · have h0 : (Channel.setCall { ch with senderCount := 1 - 1 } 2
        ⟨.close, .attempt, none⟩).calls 0 = ch.calls 0 := setCall_of_ne (by decide)
    have h2 : (Channel.setCall { ch with senderCount := 1 - 1 } 2
        ⟨.close, .attempt, none⟩).calls 2 = ⟨.close, .attempt, none⟩ := setCall_self
    refine .closing (by rw [h0]; exact htask.noSend (by simp)) (.inr (by rw [h2])) ?_
    rw [h2]
    intro hx
    cases hx

theorem Line.finish (h : Line cap iter pc pending passed asked receiver ch .close)
    (hdone : (ch.calls 2).pc = .done) :
    Line cap iter pc pending passed asked receiver ch .done := by
  have hclosed := h.closeLate rfl (by rw [hdone]; rfl)
  exact ⟨h.toShape.move rfl, .resting nofun (h.noSend nofun) hdone fun _ => hclosed,
    h.toFrontCalls, h.toContent.congr rfl rfl (fun _ _ => rfl) fun _ => h.ends rfl⟩

/-! ### The calls of `poll_next` and `get_mut` -/

theorem line_new :
    Line cap iter .top false passed passed true (.new (some cap)) .next := by
  have hinv : Channels.Inv (Channel.new (some cap) : Channel α) := inv_new (some cap)
  exact ⟨⟨hinv, rfl, rfl, rfl, fun _ _ => rfl⟩, .resting nofun rfl rfl nofun,
    .resting (.inr (.inl rfl)) rfl (.inl rfl) (fun _ => rfl) (.inr rfl) nofun nofun nofun,
    ⟨nofun, nofun, rfl, rfl⟩⟩

/-- A call begins. -/
theorem Line.call (h : Line cap iter .rest pending passed asked receiver ch task)
    (hpc : pc = .top ∨ pc = .stop false) :
    Line cap iter pc false passed asked receiver ch task := by
  have hhand : hand pc ch = hand .rest ch := by rcases hpc with rfl | rfl <;> rfl
  have hne : pc ≠ .receive := by rcases hpc with rfl | rfl <;> nofun
  refine ⟨h.toShape, h.toTaskCalls, ?_, h.toContent.congr (by rw [hhand]) rfl h.closedBy h.ends⟩
  exact {
    noDrop := fun _ => h.noDrop (.inl rfl)
    nextKind := h.nextKind
    dropKind := h.dropKind
    receives := fun hr => absurd hr hne
    nextEarly := h.nextEarly
    nextLate := fun hr => absurd hr hne
    nextPc := fun _ => (h.nextPc nofun).imp_right (Or.imp_right fun hfinish => nomatch hfinish.2.1)
    rests := fun _ => h.rests rfl
    ended := by rcases hpc with rfl | rfl <;> nofun
    dropped := h.dropped
    waiting := nofun }

theorem Line.pollReceiver (h : Line cap iter .top pending passed asked true ch task)
    (ht : Channels.step ch (if (ch.calls 1).pc = .suspended then .poll 1 else .start 1 .next) =
      some ch') : Line cap iter .receive pending passed asked true ch' task := by
  have hinv := Channels.inv_step h.inv ht
  have hfront := h.toFrontCalls
  obtain ⟨call, rfl, hcall, hkind, hearly⟩ : ∃ call, ch' = ch.setCall 1 call ∧ call.out = none ∧
      call.kind = .next ∧ early call.pc = true := by
    split at ht
    · rename_i hsusp
      rw [Channels.step, if_pos hsusp] at ht
      cases ht
      exact ⟨_, rfl, h.nextEarly (by rw [hsusp]; rfl),
        h.nextKind.resolve_left (by rw [hsusp]; decide), rfl⟩
    · obtain ⟨-, rfl⟩ := start_beside ht
      exact ⟨_, rfl, rfl, rfl, rfl⟩
  have h1 : (ch.setCall 1 call).calls 1 = call := setCall_self
  have h3 : (ch.setCall 1 call).calls 3 = ch.calls 3 := setCall_of_ne (by decide)
  refine ⟨h.toShape.setCall hinv (by decide) rfl,
    h.toTaskCalls.congr (setCall_of_ne (by decide)) (setCall_of_ne (by decide)) id, ?_,
    h.toContent.congr ?_ (unsettled_congr task rfl) h.closedBy h.ends⟩
  · obtain rfl := hfront.not_pending (by simp)
    refine .receiving (by rw [h3]; exact hfront.noDrop (.inr rfl)) (by rw [h1, hkind]) ?_ ?_
    · rw [h1]
      exact fun _ => hcall
    · rw [h1, hearly]
      intro hx
      cases hx
  · simp only [hand, h1, hcall]
    rfl

theorem Line.toStop (h : Line cap iter .top pending passed asked false ch task) :
    Line cap iter (.stop true) pending passed asked false ch task := by
  obtain rfl := h.not_pending nofun
  have hnext := h.rests rfl rfl
  refine ⟨h.toShape, h.toTaskCalls, ?_, h.toContent.congr rfl rfl h.closedBy h.ends⟩
  exact .stopping rfl h.nextKind h.dropKind h.nextEarly (.inr (.inl hnext)) (h.dropped rfl)

/-- The call returns `Pending`. -/
theorem Line.wait (h : Line cap iter pc pending passed asked receiver ch task)
    (hhand : hand pc ch = []) (hdrop : (ch.calls 3).pc = .done)
    (hnext : receiver = true ∧ (ch.calls 1).pc = .suspended ∨
      (ch.calls 1).pc = .done ∧ (receiver = true → ch.closed = true)) :
    Line cap iter .rest true passed asked receiver ch task := by
  refine ⟨h.toShape, h.toTaskCalls, ?_,
    h.toContent.congr (by rw [hhand]; rfl) rfl h.closedBy h.ends⟩
  refine .resting (.inl rfl) hdrop h.nextKind h.nextEarly (hnext.imp_right And.left)
    (fun hr => h.dropped hr (by rw [hdrop]; rfl)) nofun fun _ => ⟨rfl, fun hr => ?_⟩
  exact hnext.imp And.right fun hdone => hdone.2 hr

theorem Line.ready {msg : α} (h : Line cap iter .receive pending passed asked receiver ch task)
    (hdone : (ch.calls 1).pc = .done) (hout : (ch.calls 1).out = some (.received msg)) :
    iter passed = some msg ∧ Line cap iter .rest pending (passed + 1) asked receiver ch task := by
  have hhand : hand .receive ch = [msg] := by simp only [hand, hout]
  have horder := h.order
  have hcount := h.count
  have hlen : ([msg] : List α).length + ch.queue.length = ch.queue.length + 1 := by simp; omega
  rw [hhand] at hcount
  rw [hhand, hlen, List.range'_succ, List.map_cons, List.singleton_append, List.map_cons,
    List.cons.injEq] at horder
  obtain rfl := h.receives rfl
  obtain rfl := h.not_pending nofun
  refine ⟨horder.1.symm, h.toShape, h.toTaskCalls, ?_, h.closedBy, h.ends, ?_, ?_⟩
  · exact .resting (.inl rfl) (h.noDrop (.inr rfl)) h.nextKind h.nextEarly (.inr hdone) nofun nofun
      nofun
  · rw [← hcount, List.length_singleton]
    rfl
  · simpa [hand] using horder.2

theorem Line.toEnded (h : Line cap iter .receive pending passed asked receiver ch task)
    (hdone : (ch.calls 1).pc = .done) (hout : ∀ msg, (ch.calls 1).out ≠ some (.received msg)) :
    Line cap iter .ended pending passed asked receiver ch task := by
  have hhand : hand .receive ch = [] := by
    unfold hand
    split
    · exact absurd ‹_› (hout _)
    · rfl
  obtain rfl := h.receives rfl
  obtain rfl := h.not_pending nofun
  obtain ⟨hclosed, hnil⟩ := (h.nextLate rfl (by rw [hdone]; rfl)).resolve_left
    fun ⟨msg, hmsg⟩ => hout msg hmsg
  refine ⟨h.toShape, h.toTaskCalls, ?_,
    h.toContent.congr (by rw [hhand]; rfl) rfl h.closedBy h.ends⟩
  exact .resting (.inr (.inr rfl)) (h.noDrop (.inr rfl)) h.nextKind h.nextEarly (.inr hdone) nofun
    (fun _ => ⟨rfl, hclosed, hnil, hdone⟩) nofun

theorem Line.dropReceiver {next : Bool}
    (h : Line cap iter (.stop next) pending passed asked true ch task)
    (ht : Channels.step ch (.dropReceiver 3) = some ch') :
    Line cap iter (.stop next) pending passed asked false ch' task := by
  have hinv := Channels.inv_step h.inv ht
  have hone : ch.receiverCount = 1 := h.receivers
  simp only [Channels.step, hone, Nat.one_ne_zero, ↓reduceIte] at ht
  obtain ⟨-, rfl⟩ := start_beside ht
  have hfront := h.toFrontCalls
  refine ⟨⟨hinv, h.capacity, h.senders, rfl, fun g hg => ?_⟩,
    h.toTaskCalls.congr (setCall_of_ne (by decide)) (setCall_of_ne (by decide)) id, ?_,
    h.toContent.congr rfl (unsettled_congr task rfl) (fun _ h => Bool.noConfusion h)
      fun _ h => Bool.noConfusion h⟩
  · rw [setCall_of_ne (by omega)]
    exact h.others g hg
  · have h1 : (Channel.setCall { ch with receiverCount := 1 - 1 } 3
        ⟨.close, .attempt, none⟩).calls 1 = ch.calls 1 := setCall_of_ne (by decide)
    have h3 : (Channel.setCall { ch with receiverCount := 1 - 1 } 3
        ⟨.close, .attempt, none⟩).calls 3 = ⟨.close, .attempt, none⟩ := setCall_self
    obtain rfl := hfront.not_pending (by simp)
    have hnext := hfront.nextPc (by simp)
    rw [← h1] at hnext
    refine .stopping rfl (by rw [h1]; exact hfront.nextKind) (.inr (by rw [h3])) ?_
      (hnext.imp_right (Or.imp_right And.left)) ?_
    · rw [h1]
      exact hfront.nextEarly
    · rw [h3]
      intro hx
      cases hx

theorem Line.dropNext {next : Bool}
    (h : Line cap iter (.stop next) pending passed asked false ch task)
    (ht : Channels.step ch (.drop 1) = some ch') :
    Line cap iter (.stop next) pending passed asked false ch' task := by
  have hinv := Channels.inv_step h.inv ht
  simp only [Channels.step] at ht
  split at ht <;> cases ht
  rename_i hsusp
  have hfront := h.toFrontCalls
  have hclosed : (ch.goto 1 .finish).closed = ch.closed := rfl
  have h1 : (ch.goto 1 .finish).calls 1 = { ch.calls 1 with pc := .finish } := setCall_self
  have h3 : (ch.goto 1 .finish).calls 3 = ch.calls 3 := setCall_of_ne (by decide)
  have hnone := h.nextEarly (by rw [hsusp]; rfl)
  refine ⟨h.toShape.setCall hinv (by decide) rfl,
    h.toTaskCalls.congr (setCall_of_ne (by decide)) (setCall_of_ne (by decide)) id, ?_,
    h.toContent.congr rfl (unsettled_congr task rfl) h.closedBy h.ends⟩
  obtain rfl := hfront.not_pending (by simp)
  refine .stopping rfl ?_ (by rw [h3]; exact hfront.dropKind) ?_ (.inr (.inr (by rw [h1]))) ?_
  · rw [h1]
    exact .inr (hfront.nextKind.resolve_left (by simp [hsusp]))
  · rw [h1]
    intro hx
    cases hx
  · rw [h3, hclosed]
    exact hfront.dropped rfl

end Line

/-! ## Whole runs -/

/-- The answers with a mark. -/
def delivered (iter : Nat → Option α) (passed : List Bool) : List (Option α) :=
  (passed.zipIdx.filter Prod.fst).map fun p => iter p.2

structure Inv (cap : Nat) (iter : Nat → Option α) (s : State α) : Prop where
  answers : s.answers = delivered iter s.passed
  idle : s.unblock = .idle → s.asked = s.passed.length ∧ s.pending = false
  line : ∀ receiver ch task, s.unblock = .streaming receiver ch task →
    Line cap iter s.pc s.pending s.passed.length s.asked receiver ch task

section Runs

variable {cap : Nat} {iter : Nat → Option α} {s t : State α} {receiver : Bool} {ch : Channel α}
  {task : TaskPc}

theorem delivered_true (passed : List Bool) :
    delivered iter (passed ++ [true]) = delivered iter passed ++ [iter passed.length] := by
  simp [delivered, List.zipIdx_append]

theorem delivered_false (passed : List Bool) (n : Nat) :
    delivered iter (passed ++ List.replicate n false) = delivered iter passed := by
  have hnone : ((List.replicate n false).zipIdx passed.length).filter Prod.fst = [] := by
    rw [List.filter_eq_nil_iff]
    rintro ⟨b, i⟩ hmem
    have hb := List.fst_mem_of_mem_zipIdx hmem
    simpa using List.eq_of_mem_replicate hb
  rw [delivered, List.zipIdx_append, List.filter_append, Nat.zero_add, hnone, List.append_nil,
    delivered]

theorem inv_new : Inv cap iter (new : State α) := ⟨rfl, fun _ => ⟨rfl, rfl⟩, nofun⟩

/-- A step that delivers nothing and leaves `Unblock` in the state `Streaming`. -/
theorem Inv.keep (h : Inv cap iter s) (hpassed : t.passed = s.passed)
    (hanswers : t.answers = s.answers) (hunblock : t.unblock = .streaming receiver ch task)
    (hline : Line cap iter t.pc t.pending s.passed.length t.asked receiver ch task) :
    Inv cap iter t where
  answers := by rw [hanswers, hpassed, h.answers]
  idle hidle := by cases hidle.symm.trans hunblock
  line := by
    intro r c k heq
    cases hunblock.symm.trans heq
    rw [hpassed]
    exact hline

theorem inv_back (h : Inv cap iter s) (ht : back iter s = some t) : Inv cap iter t := by
  unfold back at ht
  cases hu : s.unblock with
  | idle =>
    rw [hu] at ht
    cases ht
  | streaming receiver ch task =>
    have hl := h.line _ _ _ hu
    rw [hu] at ht
    cases task <;> dsimp only at ht
    case next =>
      cases hx : iter s.asked with
      | none =>
        rw [hx] at ht
        cases ht
        exact h.keep rfl rfl rfl (hl.leave hx)
      | some item =>
        rw [hx] at ht
        obtain ⟨u, hu, rfl⟩ := Option.map_eq_some_iff.mp ht
        obtain ⟨ch', hch, rfl⟩ := Option.map_eq_some_iff.mp hu
        exact h.keep rfl rfl rfl (hl.startSend hx hch)
    case send =>
      split at ht
      · obtain ⟨ch', hch, rfl⟩ := Option.map_eq_some_iff.mp ht
        exact h.keep rfl rfl rfl (hl.pollSend hch)
      · rename_i hdone
        split at ht <;> cases ht
        · exact h.keep rfl rfl rfl (hl.sent hdone ‹_›)
        · exact h.keep rfl rfl rfl (hl.refused hdone ‹_›)
      · obtain ⟨ch', hch, rfl⟩ := Option.map_eq_some_iff.mp ht
        exact h.keep rfl rfl rfl (hl.send hch)
    case leave =>
      obtain ⟨ch', hch, rfl⟩ := Option.map_eq_some_iff.mp ht
      exact h.keep rfl rfl rfl (hl.dropSender hch)
    case close =>
      split at ht
      · cases ht
        exact h.keep rfl rfl rfl (hl.finish ‹_›)
      · obtain ⟨ch', hch, rfl⟩ := Option.map_eq_some_iff.mp ht
        exact h.keep rfl rfl rfl (hl.closes hch (.inl ⟨rfl, rfl⟩))
    case done => cases ht

theorem inv_stop {next : Bool} (h : Inv cap iter s) (hpc : s.pc = .stop next)
    (hu : s.unblock = .streaming receiver ch task) (ht : stop s next receiver ch task = some t) :
    Inv cap iter t := by
  have hl := h.line _ _ _ hu
  rw [hpc] at hl
  unfold stop at ht
  dsimp only at ht
  split at ht
  · rename_i hr
    subst hr
    obtain ⟨ch', hch, rfl⟩ := Option.map_eq_some_iff.mp ht
    exact h.keep rfl rfl rfl (by simpa only [hpc] using hl.dropReceiver hch)
  · rename_i hr
    rw [Bool.not_eq_true] at hr
    subst hr
    split at ht
    · obtain ⟨ch', hch, rfl⟩ := Option.map_eq_some_iff.mp ht
      exact h.keep rfl rfl rfl (by simpa only [hpc] using hl.closes hch (.inr ⟨rfl, rfl, rfl⟩))
    · rename_i hdrop
      rw [not_not] at hdrop
      split at ht
      · obtain ⟨ch', hch, rfl⟩ := Option.map_eq_some_iff.mp ht
        exact h.keep rfl rfl rfl (by simpa only [hpc] using hl.dropNext hch)
      · rename_i hnext
        split at ht <;> cases ht
        · -- The iterator is back; what it has answered and nobody has received is lost.
          have hle : s.passed.length ≤ s.asked := by
            have := hl.count
            omega
          refine ⟨h.answers.trans (delivered_false _ _).symm, fun _ => ⟨?_, ?_⟩, nofun⟩
          · simp
            omega
          · cases hp : s.pending with
            | false => rfl
            | true => cases (hl.waiting hp).1
        · exact h.keep rfl rfl hu (hl.wait rfl hdrop (.inr ⟨hnext, nofun⟩))
      · rename_i hsusp hdone
        obtain ⟨ch', hch, rfl⟩ := Option.map_eq_some_iff.mp ht
        have hfinish : (ch.calls 1).pc = .finish := by
          have := hl.nextPc nofun
          tauto
        have hstep : ch.exec 1 = some ch' := hch
        have hstays := exec_stays hstep (by simp [hfinish])
        have hafter : (ch'.calls 1).pc = .done := by
          rw [Channel.exec, hfinish] at hstep
          cases hstep
          simp [Channel.goto, Channel.setCall, Channel.setEvent]
        exact h.keep rfl rfl rfl (by
          simpa only [hpc] using hl.stays (hl.inv_exec hstep) hstays (by simp [hfinish])
            (.inr (.inr (.inl ⟨rfl, rfl, rfl, .inr hafter⟩))))

theorem Inv.idle_of_pc (h : Inv cap iter s) (hidle : s.unblock = .idle) (hu : t.unblock = .idle)
    (hasked : t.asked = s.asked) (hpassed : t.passed = s.passed) (hanswers : t.answers = s.answers)
    (hpending : s.pending = false → t.pending = false) : Inv cap iter t where
  answers := by rw [hanswers, hpassed, h.answers]
  idle _ := by
    rw [hasked, hpassed]
    exact ⟨(h.idle hidle).1, hpending (h.idle hidle).2⟩
  line := by
    intro r c k heq
    cases hu.symm.trans heq

theorem inv_receive (h : Inv cap iter s) (hpc : s.pc = .receive)
    (hu : s.unblock = .streaming receiver ch task) (ht : front cap s = some t) :
    Inv cap iter t := by
  have hl := h.line _ _ _ hu
  simp only [front, hpc, hu] at ht
  rw [hpc] at hl
  have hr := hl.receives rfl
  subst hr
  have hdrop := hl.noDrop (.inr rfl)
  split at ht
  · rename_i hsusp
    cases ht
    have hhand : hand .receive ch = [] := by
      simp only [hand, hl.nextEarly (by rw [hsusp]; rfl)]
    exact h.keep rfl rfl hu (hl.wait hhand hdrop (.inl ⟨rfl, hsusp⟩))
  · rename_i hdone
    split at ht <;> cases ht
    · rename_i msg hout
      obtain ⟨hmsg, hline⟩ := hl.ready hdone hout
      refine ⟨?_, fun hidle => (by cases hu.symm.trans hidle), ?_⟩
      · change s.answers ++ [some msg] = delivered iter (s.passed ++ [true])
        rw [delivered_true, h.answers, hmsg]
      · intro r c k heq
        cases hu.symm.trans heq
        simpa [State.ready] using hline
    · rename_i hout
      exact h.keep rfl rfl rfl (hl.toEnded hdone fun msg => by simpa using hout msg)
  · obtain ⟨ch', hch, rfl⟩ := Option.map_eq_some_iff.mp ht
    exact h.keep rfl rfl rfl (by simpa only [hpc] using hl.receive hch)

theorem inv_ended (h : Inv cap iter s) (hpc : s.pc = .ended)
    (hu : s.unblock = .streaming receiver ch task) (ht : front cap s = some t) :
    Inv cap iter t := by
  have hl := h.line _ _ _ hu
  rw [hpc] at hl
  obtain ⟨hr, hclosed, hnil, hdone⟩ := hl.ended rfl
  subst hr
  by_cases htask : task = .done
  · subst htask
    simp only [front, hpc, hu] at ht
    cases ht
    have hcount : s.passed.length + 0 + ch.queue.length + 1 = s.asked := hl.count
    have hend := hl.ends rfl rfl
    rw [hnil] at hcount
    have hasked : s.asked - 1 = s.passed.length := by
      rw [← hcount]
      rfl
    refine ⟨?_, fun _ => ⟨?_, ?_⟩, nofun⟩
    · change s.answers ++ [none] = delivered iter (s.passed ++ [true])
      rw [delivered_true, h.answers, ← hasked, hend]
    · simpa [State.ready] using hcount.symm
    · cases hp : s.pending with
      | false => exact hp
      | true => cases (hl.waiting hp).1
  · have hwait : t = s.wait := by
      cases task <;> simp only [front, hpc, hu] at ht
      case done => exact absurd rfl htask
      all_goals exact (Option.some.inj ht).symm
    subst hwait
    exact h.keep rfl rfl hu (hl.wait rfl (hl.noDrop (.inr rfl)) (.inr ⟨hdone, fun _ => hclosed⟩))

theorem inv_front (h : Inv cap iter s) (ht : front cap s = some t) : Inv cap iter t := by
  cases hu : s.unblock with
  | idle =>
    cases hpc : s.pc <;> simp only [front, hpc, hu] at ht
    case rest | receive | ended => cases ht
    case top =>
      cases ht
      obtain ⟨hasked, hpending⟩ := h.idle hu
      exact h.keep rfl rfl rfl (by simpa only [hpc, hasked, hpending] using line_new)
    case stop next =>
      cases ht
      exact h.idle_of_pc hu rfl rfl rfl rfl id
  | streaming receiver ch task =>
    have hl := h.line _ _ _ hu
    cases hpc : s.pc with
    | rest =>
      simp only [front, hpc] at ht
      cases ht
    | top =>
      rw [hpc] at hl
      cases receiver <;> simp only [front, hpc, hu] at ht
      · cases ht
        exact h.keep rfl rfl rfl hl.toStop
      · obtain ⟨ch', hch, rfl⟩ := Option.map_eq_some_iff.mp ht
        exact h.keep rfl rfl rfl (hl.pollReceiver hch)
    | receive => exact inv_receive h hpc hu ht
    | ended => exact inv_ended h hpc hu ht
    | stop next =>
      simp only [front, hpc, hu] at ht
      exact inv_stop h hpc hu ht

theorem inv_call {pc : Pc} (h : Inv cap iter s) (hrest : s.pc = .rest)
    (hpc : pc = .top ∨ pc = .stop false) : Inv cap iter { s with pc := pc, pending := false } := by
  cases hu : s.unblock with
  | idle => exact h.idle_of_pc hu rfl rfl rfl rfl fun _ => rfl
  | streaming receiver ch task =>
    have hl := h.line _ _ _ hu
    rw [hrest] at hl
    exact h.keep rfl rfl rfl (hl.call hpc)

theorem inv_of_reachable (hs : (system cap iter).Reachable s) : Inv cap iter s := by
  refine System.Reachable.invariant (M := system cap iter) inv_new (fun s a t h ht => ?_) hs
  cases a with
  | pollNext =>
    simp only [system, step] at ht
    split at ht <;> cases ht
    exact inv_call h ‹_› (.inl rfl)
  | getMut =>
    simp only [system, step] at ht
    split at ht <;> cases ht
    exact inv_call h ‹_› (.inr rfl)
  | front => exact inv_front h ht
  | back => exact inv_back h ht

/-- Nobody has stopped the stream. -/
structure Plain (s : State α) : Prop where
  passed : ∀ b ∈ s.passed, b = true
  pc : s.pc.stops = false
  receiver : ∀ receiver ch task, s.unblock = .streaming receiver ch task → receiver = true

theorem back_frame (hu : s.unblock = .streaming receiver ch task) (ht : back iter s = some t) :
    t.passed = s.passed ∧ t.pc = s.pc ∧
      ∃ ch task, t.unblock = .streaming receiver ch task := by
  simp only [back, hu] at ht
  cases task <;> dsimp only at ht
  case next =>
    split at ht
    · obtain ⟨u, hu, rfl⟩ := Option.map_eq_some_iff.mp ht
      obtain ⟨ch', -, rfl⟩ := Option.map_eq_some_iff.mp hu
      exact ⟨rfl, rfl, _, _, rfl⟩
    · cases ht
      exact ⟨rfl, rfl, _, _, rfl⟩
  case done => cases ht
  all_goals
    repeat' split at ht
    all_goals first
      | cases ht
        exact ⟨rfl, rfl, _, _, rfl⟩
      | obtain ⟨ch', -, rfl⟩ := Option.map_eq_some_iff.mp ht
        exact ⟨rfl, rfl, _, _, rfl⟩

theorem plain_step {a : Act} (h : Plain s) (ha : a ≠ .getMut) (ht : step cap iter s a = some t) :
    Plain t := by
  cases a with
  | getMut => exact absurd rfl ha
  | pollNext =>
    simp only [step] at ht
    split at ht <;> cases ht
    exact ⟨h.passed, rfl, h.receiver⟩
  | front =>
    have hpc := h.pc
    simp only [step, front] at ht
    split at ht
    case h_1 =>
      cases ht
      exact ⟨h.passed, hpc, fun _ _ _ heq => by cases heq; rfl⟩
    case h_2 =>
      obtain ⟨ch', -, rfl⟩ := Option.map_eq_some_iff.mp ht
      exact ⟨h.passed, rfl, fun _ _ _ heq => by cases heq; rfl⟩
    case h_3 hu => cases h.receiver _ _ _ hu
    case h_4 hu =>
      have hr := h.receiver _ _ _ hu
      split at ht
      · cases ht
        exact ⟨h.passed, rfl, h.receiver⟩
      · split at ht <;> cases ht
        · exact ⟨by simpa [State.ready, or_imp, forall_and] using h.passed, rfl, h.receiver⟩
        · exact ⟨h.passed, rfl, h.receiver⟩
      · obtain ⟨ch', -, rfl⟩ := Option.map_eq_some_iff.mp ht
        exact ⟨h.passed, hpc, fun _ _ _ heq => by cases heq; exact hr⟩
    case h_5 =>
      cases ht
      exact ⟨by simpa [State.ready, or_imp, forall_and] using h.passed, rfl, nofun⟩
    case h_6 =>
      cases ht
      exact ⟨h.passed, rfl, h.receiver⟩
    case h_7 hstop _ | h_8 hstop _ =>
      rw [hstop] at hpc
      cases hpc
    all_goals cases ht
  | back =>
    cases hu : s.unblock with
    | idle =>
      simp only [step, back, hu] at ht
      cases ht
    | streaming receiver ch task =>
      obtain ⟨hpassed, hpc, ch', task', hu'⟩ := back_frame hu ht
      refine ⟨hpassed ▸ h.passed, hpc ▸ h.pc, fun _ _ _ heq => ?_⟩
      cases hu'.symm.trans heq
      exact h.receiver _ _ _ hu

theorem delivered_all {passed : List Bool} (h : ∀ b ∈ passed, b = true) :
    delivered iter passed = (List.range passed.length).map iter := by
  induction passed using List.reverseRecOn with
  | nil => rfl
  | append_singleton passed b ih =>
    have hb := h b (by simp)
    subst hb
    rw [delivered_true, ih fun b hb => h b (by simp [hb]), List.length_append,
      List.length_singleton, List.range_succ, List.map_append, List.map_singleton]

theorem unsettled_le (ch : Channel α) (task : TaskPc) : unsettled ch task ≤ 1 := by
  unfold unsettled
  split
  · decide
  · split <;> decide
  all_goals decide

theorem hand_le {pc : Pc} (hpc : pc ≠ .receive) : hand pc ch = [] := by
  unfold hand
  split
  · exact absurd rfl hpc
  · rfl

/-- `poll_next` returns what the iterator returns, in the same order. It leaves out only what is
lost when the stream is stopped: the iterator is never ahead of the calls by more than the
capacity and the item that is being sent. Without a stop nothing is left out. -/
theorem unblock_stream_in_order (cap : Nat) (iter : Nat → Option α) (s : State α)
    (hs : (system cap iter).Reachable s) :
    s.answers = delivered iter s.passed ∧ s.passed.length ≤ s.asked ∧
    (s.pc ≠ .receive → s.asked ≤ s.passed.length + cap + 1) ∧
    (s.unblock = .idle → s.asked = s.passed.length) ∧
    ((system cap iter).ReachableVia (fun _ a => a ≠ .getMut) s →
      s.answers = (List.range s.answers.length).map iter) := by
  have h := inv_of_reachable hs
  have hahead : s.passed.length ≤ s.asked ∧
      (s.pc ≠ .receive → s.asked ≤ s.passed.length + cap + 1) := by
    cases hu : s.unblock with
    | idle =>
      have := (h.idle hu).1
      omega
    | streaming receiver ch task =>
      have hl := h.line _ _ _ hu
      have hcount := hl.count
      have huns := unsettled_le ch task
      have hbound := hl.inv.bound cap hl.capacity
      refine ⟨by omega, fun hpc => ?_⟩
      rw [hand_le hpc] at hcount
      simp only [List.length_nil] at hcount
      omega
  refine ⟨h.answers, hahead.1, hahead.2, fun hidle => (h.idle hidle).1, fun hplain => ?_⟩
  have hp : Plain s := System.ReachableVia.invariant (M := system cap iter)
    ⟨nofun, rfl, nofun⟩ (fun _ _ _ ha h ht => plain_step h ha ht) hplain
  rw [h.answers, delivered_all hp.passed, List.length_map, List.length_range]

def sevenEight : Nat → Option Nat
  | 0 => some 7
  | 1 => some 8
  | _ => none

/-- A poll that finds the channel empty; then the first item is sent. -/
def sendsFirst : List Act := .pollNext :: List.replicate 7 .front ++ List.replicate 7 .back

theorem unblock_stream_in_order_readsAhead :
    ∃ s : State Nat, (system 1 sevenEight).Reachable s ∧ s.answers = [some 7] ∧ s.asked = 2 ∧
      s.answers = delivered sevenEight s.passed ∧ s.asked ≤ s.passed.length + 1 + 1 ∧
      s.answers = (List.range s.answers.length).map sevenEight := by
  obtain ⟨s, hs, hpc, hanswers, hasked⟩ :=
    (system 1 sevenEight).exists_of_runVia (fun _ a => a ≠ .getMut)
      (P := fun s => s.pc = .rest ∧ s.answers = [some 7] ∧ s.asked = 2)
      (sendsFirst ++ .pollNext :: List.replicate 6 .front ++ [.back]) (by decide)
  have h := unblock_stream_in_order 1 sevenEight s hs.reachable
  exact ⟨s, hs.reachable, hanswers, hasked, h.1, h.2.2.1 (by rw [hpc]; nofun), h.2.2.2.2 hs⟩

/-- The task can go on by itself, or was told to. -/
def Awake (ch : Channel α) (task : TaskPc) : Prop :=
  task ≠ .done ∧ (task = .send → (ch.calls 0).pc = .suspended → (0, true) ∈ ch.sendOps)

theorem Line.finished {pc : Pc} {pending : Bool} {passed asked : Nat}
    (h : Line cap iter pc pending passed asked receiver ch .done) : ch.closed = true :=
  h.closeLate rfl (by rw [h.noClose nofun]; rfl)

/-- Between two polls, and while the task sleeps, no call on the channel is in the middle of a
poll. -/
theorem Line.quiescent {passed asked : Nat}
    (h : Line cap iter .rest true passed asked receiver ch task)
    (hasleep : task = .done ∨
      task = .send ∧ (ch.calls 0).pc = .suspended ∧ (0, true) ∉ ch.sendOps) : ch.Quiescent := by
  intro f
  match f with
  | 0 =>
    rcases hasleep with rfl | ⟨rfl, hsusp, -⟩
    · exact .inr (h.noSend nofun)
    · exact .inl hsusp
  | 1 =>
    rcases h.nextPc nofun with hsusp | hdone | ⟨-, hstops, -⟩
    · exact .inl hsusp
    · exact .inr hdone
    · cases hstops
  | 2 => exact .inr (h.noClose (by rcases hasleep with rfl | ⟨rfl, -⟩ <;> nofun))
  | 3 => exact .inr (h.noDrop (.inl rfl))
  | n + 4 => exact .inr (h.others _ (by omega))

/-- Nobody has told the call of `send` of room in the queue, so there is none. -/
theorem Line.queue_of_asleep {passed asked : Nat}
    (h : Line cap iter .rest true passed asked true ch .send) (hcap : 0 < cap)
    (hquiet : ch.Quiescent) (hsend : (ch.calls 0).pc = .suspended)
    (hnot : (0, true) ∉ ch.sendOps) : ch.queue ≠ [] := by
  have hopen : ch.closed = false := by
    cases hc : ch.closed with
    | false => rfl
    | true => cases h.closedBy hc rfl
  obtain ⟨x, hkind, -⟩ := h.sendKind rfl
  intro hnil
  have hroom : ¬ch.isFull := by
    rintro ⟨c, hc, hle⟩
    rw [h.capacity] at hc
    cases hc
    rw [hnil] at hle
    exact absurd hle (Nat.not_le.mpr hcap)
  obtain ⟨g, hg, hsusp, hmem⟩ := h.inv.send.one_notified ⟨hroom, hopen⟩
    (fun g => by rcases hquiet g with hg | hg <;> simp [Call.owesSend, hg]) hquiet
    (by rw [hkind]; rfl) hsend
  rcases g with _ | _ | _ | _ | n
  · exact hnot hmem
  · rw [h.nextKind.resolve_left (by simp [hsusp])] at hg
    cases hg
  · rw [h.noClose (by decide)] at hsusp
    cases hsusp
  · rw [h.noDrop (.inl rfl)] at hsusp
    cases hsusp
  · rw [h.others _ (by omega)] at hsusp
    cases hsusp

/-- While a call awaits its `Pending`, the task is awake, or the call is woken: by the message
or the end that it waits for, or by the end of the task. -/
theorem unblock_stream_awake (cap : Nat) (hcap : 0 < cap) (iter : Nat → Option α) (s : State α)
    (hs : (system cap iter).Reachable s) (hpending : s.pending = true) :
    ∃ receiver ch task, s.unblock = .streaming receiver ch task ∧
      (Awake ch task ∨ if receiver = true ∧ (ch.calls 1).pc = .suspended
        then (1, true) ∈ ch.streamOps else task = .done) := by
  have h := inv_of_reachable hs
  cases hu : s.unblock with
  | idle =>
    have := (h.idle hu).2
    rw [hpending] at this
    cases this
  | streaming receiver ch task =>
    have hl := h.line _ _ _ hu
    refine ⟨receiver, ch, task, rfl, ?_⟩
    obtain ⟨hrest, hwaits⟩ := hl.waiting hpending
    rw [hrest, hpending] at hl
    by_cases hawake : Awake ch task
    · exact .inl hawake
    · refine .inr ?_
      have hasleep : task = .done ∨
          task = .send ∧ (ch.calls 0).pc = .suspended ∧ (0, true) ∉ ch.sendOps := by
        unfold Awake at hawake
        tauto
      have hquiet : ch.Quiescent := hl.quiescent hasleep
      by_cases hlistens : receiver = true ∧ (ch.calls 1).pc = .suspended
      · rw [if_pos hlistens]
        obtain ⟨hr, hsusp⟩ := hlistens
        have hkind : (ch.calls 1).kind = .next := hl.nextKind.resolve_left (by simp [hsusp])
        refine hl.inv.stream.all_notified ?_ (fun g => ?_) (by rw [hkind]; rfl) hsusp
        · rcases hasleep with rfl | ⟨rfl, hsend, hnot⟩
          · exact .inr (hl.finished)
          · exact .inl (by subst hr; exact hl.queue_of_asleep hcap hquiet hsend hnot)
        · rcases hquiet g with hg | hg <;> simp [Call.owesStream, hg]
      · rw [if_neg hlistens]
        rcases hasleep with hdone | ⟨rfl, hsend, hnot⟩
        · exact hdone
        · -- The channel is closed, so the task is told.
          have hclosed : ch.closed = true := by
            cases receiver with
            | true => exact (hwaits rfl).resolve_left fun hsusp => hlistens ⟨rfl, hsusp⟩
            | false => exact hl.dropped rfl (by rw [hl.noDrop (.inl rfl)]; rfl)
          obtain ⟨x, hkind, -⟩ := hl.sendKind rfl
          refine absurd (hl.inv.send.all_notified hclosed (fun g => ?_) (by rw [hkind]; rfl) hsend)
            hnot
          rcases hquiet g with hg | hg <;> simp [Call.closesSend, hg]

theorem unblock_stream_awake_fullChannel :
    ∃ s : State Nat, (system 1 sevenEight).Reachable s ∧ s.pending = true ∧ s.asked = 2 ∧
      ∃ receiver ch task, s.unblock = .streaming receiver ch task ∧
        (Awake ch task ∨ if receiver = true ∧ (ch.calls 1).pc = .suspended
          then (1, true) ∈ ch.streamOps else task = .done) := by
  obtain ⟨s, -, hs, hpending, hasked⟩ := (system 1 sevenEight).exists_of_run
    (P := fun s => s.pending = true ∧ s.asked = 2)
    (sendsFirst ++ List.replicate 6 .back) (by decide)
  exact ⟨s, hs, hpending, hasked, unblock_stream_awake 1 (by decide) sevenEight s hs hpending⟩

end Runs

end Cynthia.Blocking.UnblockStream
