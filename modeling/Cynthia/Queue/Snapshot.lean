import Cynthia.Queue.BoundedReads
import Cynthia.Queue.UnboundedReads

/-! What the functions that only read say of both queues: `len` is a snapshot, and
`is_empty` and `is_full` are truthful but for `is_empty` at the end of a block. -/

namespace Cynthia.Queue

open Transition

/-- Whatever pushes, pops and closes do while `len` runs: its answer is the number of
elements that the queue has at some instant of the call. -/
theorem len_is_snapshot (α : Type) :
    (∀ (cap : Capacity) (w : Watched (Bounded.State α) Bounded.ReadPc Answer) (n : Option Nat),
      (Bounded.watched cap).ReachableVia
        (Permits (Bounded.NoStall cap) (Bounded.Fresh cap 0)) w →
      w.phase = .answered (.len n) →
      ∃ u ∈ w.past, u.popped ≤ u.pushed ∧ n = some (u.pushed - u.popped) ∧
        u.pushed - u.popped ≤ cap.val) ∧
    ∀ (w : Watched (Unbounded.State α) Unbounded.ReadPc Answer) (n : Option Nat),
      Unbounded.watched.Reachable w → w.phase = .answered (.len n) →
      ∃ u ∈ w.past, u.popped ≤ u.claims.length ∧ n = some (u.claims.length - u.popped) :=
  ⟨fun _ _ _ hw hphase => Bounded.len_eq hw hphase,
    fun _ _ hw hphase => Unbounded.len_eq hw hphase⟩

/-- A push claims after `len` has loaded `tail`, so that `len` starts again; a pop
claims before it loads `head`. -/
def lenMeanwhile : List (Watch (Bounded.Act Nat) Query) :=
  [.base (.call 0 (.push 7)), .base (.step 0 false), .base (.step 0 false), .call .len, .read,
   .base (.step 0 false), .read, .read, .read, .base (.step 0 false), .base (.step 0 false),
   .base (.call 1 .pop), .base (.step 1 false), .base (.step 1 false), .base (.step 1 false),
   .read, .read]

/-- Pushes and pops of the 31 slots of a block. The last pop has claimed its slot and
not yet moved `head` to the next block. -/
def blockEnd : List (Watch (Unbounded.Act Nat) Query) :=
  let claim (op : Op Nat) (n id : Nat) : List (Unbounded.Act Nat) :=
    .call id op :: List.replicate n (.step id false)
  (claim (.push 0) 5 0 ++ (List.range' 1 29).flatMap (claim (.push 0) 3) ++ claim (.push 0) 5 30 ++
    (List.range' 31 31).flatMap (claim .pop 4)).map .base

theorem len_is_snapshot_moving :
    (∃ w : Watched (Bounded.State Nat) Bounded.ReadPc Answer,
      (Bounded.watched Bounded.oneSlot).ReachableVia
        (Permits (Bounded.NoStall Bounded.oneSlot) (Bounded.Fresh Bounded.oneSlot 0)) w ∧
      w.phase = .answered (.len (some 0)) ∧ ∃ u ∈ w.past, u.popped ≤ u.pushed ∧
        some 0 = some (u.pushed - u.popped) ∧ u.pushed - u.popped ≤ 1) ∧
    ∃ w : Watched (Unbounded.State Nat) Unbounded.ReadPc Answer, Unbounded.watched.Reachable w ∧
      w.phase = .answered (.len (some 0)) ∧ ∃ u ∈ w.past, u.popped ≤ u.claims.length ∧
        some 0 = some (u.claims.length - u.popped) := by
  constructor
  · obtain ⟨w, hw, hphase⟩ := (Bounded.watched Bounded.oneSlot).exists_of_runVia
      (Permits (Bounded.NoStall Bounded.oneSlot) (Bounded.Fresh Bounded.oneSlot 0))
      (P := fun w => w.phase = .answered (.len (some 0))) lenMeanwhile (by decide)
    exact ⟨w, hw, hphase, (len_is_snapshot Nat).1 Bounded.oneSlot w _ hw hphase⟩
  · obtain ⟨w, -, hw, hphase⟩ := System.exists_of_run (M := Unbounded.watched)
      (P := fun w => w.phase = .answered (.len (some 0)))
      (blockEnd ++ [.call .len, .read, .read, .read]) (by decide +kernel)
    exact ⟨w, hw, hphase, (len_is_snapshot Nat).2 w _ hw hphase⟩

/-- No push and no pop is claimed from the first of two calls to the second. -/
def Undisturbed {σ ρ : Type} (counts : σ → Counts) (w w' : Watched σ ρ Answer) : Prop :=
  ∀ u ∈ w.past, ∀ v ∈ w'.past, counts u = counts v

theorem agree_of_undisturbed {σ ρ : Type} {counts : σ → Counts} {w w' : Watched σ ρ Answer}
    {b : Bool} {n : Option Nat} {u : σ} (hne : w.past ≠ []) (hu : u ∈ w'.past)
    (hle : (counts u).popped ≤ (counts u).pushed)
    (hn : n = some ((counts u).pushed - (counts u).popped)) (hsame : Undisturbed counts w w') :
    (b = true ↔ n = some 0) ↔ Truthful (w.past.map counts) 0 b := by
  have hall : ∀ c ∈ w.past.map counts, ∀ d ∈ w'.past.map counts, c = d := by
    intro c hc d hd
    obtain ⟨x, hx, rfl⟩ := List.mem_map.mp hc
    obtain ⟨y, hy, rfl⟩ := List.mem_map.mp hd
    exact hsame x hx y hy
  exact agree_iff (by simpa using hne) ⟨counts u, List.mem_map_of_mem hu, hle, hn⟩ hall

/-- The functions of `Bounded` are truthful. `is_empty` of `Unbounded` is, unless it
loads `head` at the end of a block and `tail` at the start of the next one while
nothing is claimed: it says then that the empty queue is not empty. -/
theorem is_empty_truthful_iff (α : Type) :
    (∀ (cap : Capacity) (w : Watched (Bounded.State α) Bounded.ReadPc Answer) (b : Bool),
      (Bounded.watched cap).ReachableVia
        (Permits (Bounded.NoStall cap) (Bounded.Fresh cap cap.val)) w →
      (w.phase = .answered (.isFull b) → Truthful (w.past.map Bounded.State.counts) cap.val b) ∧
      (w.phase = .answered (.isEmpty b) → Truthful (w.past.map Bounded.State.counts) 0 b ∧
        ∀ w' n, (Bounded.watched cap).ReachableVia
            (Permits (Bounded.NoStall cap) (Bounded.Fresh cap cap.val)) w' →
          w'.phase = .answered (.len n) → Undisturbed Bounded.State.counts w w' →
          (b = true ↔ n = some 0))) ∧
    ∀ (w : Watched (Unbounded.State α) Unbounded.ReadPc Answer) (b : Bool),
      Unbounded.watched.Reachable w → w.phase = .answered (.isEmpty b) →
      (Truthful (w.past.map Unbounded.State.counts) 0 b ↔
        ¬(Unbounded.AtBlockEnd w ∧ Unbounded.Calm w)) ∧
      ∀ w' n, Unbounded.watched.Reachable w' → w'.phase = .answered (.len n) →
        Undisturbed Unbounded.State.counts w w' →
        ((b = true ↔ n = some 0) ↔ ¬Unbounded.AtBlockEnd w) := by
  constructor
  · intro cap w b hw
    refine ⟨fun hphase => Bounded.isFull_truthful hw hphase, fun hphase => ?_⟩
    have htruthful := Bounded.isEmpty_truthful hw hphase
    refine ⟨htruthful, fun w' n hw' hphase' hsame => ?_⟩
    obtain ⟨u, hu, hle, hn, -⟩ := Bounded.len_eq hw' hphase'
    have hne : w.past ≠ [] := Watched.past_ne_nil hw (by simp [hphase])
    exact (agree_of_undisturbed hne hu hle hn hsame).mpr htruthful
  · intro w b hw hphase
    have htruthful := Unbounded.isEmpty_truthful_iff hw hphase
    refine ⟨htruthful, fun w' n hw' hphase' hsame => ?_⟩
    obtain ⟨u, hu, hle, hn⟩ := Unbounded.len_eq hw' hphase'
    have hne : w.past ≠ [] := Watched.past_ne_nil (Watched.permitted hw) (by simp [hphase])
    have hcalm : Unbounded.Calm w := fun x hx y hy => (hsame x hx u hu).trans (hsame y hy u hu).symm
    rw [agree_of_undisturbed hne hu hle hn hsame, htruthful, and_iff_left hcalm]

/-- A push has claimed the only slot and writes its value between the two loads. -/
def fullMeanwhile : List (Watch (Bounded.Act Nat) Query) :=
  [.base (.call 0 (.push 7)), .base (.step 0 false), .base (.step 0 false), .base (.step 0 false),
   .call .isFull, .read, .base (.step 0 false), .read]

theorem is_empty_truthful_iff_at_end :
    (∃ w : Watched (Bounded.State Nat) Bounded.ReadPc Answer,
      w.phase = .answered (.isFull true) ∧ Truthful (w.past.map Bounded.State.counts) 1 true) ∧
    ∃ w : Watched (Unbounded.State Nat) Unbounded.ReadPc Answer,
      w.phase = .answered (.isEmpty false) ∧ Unbounded.AtBlockEnd w ∧ Unbounded.Calm w := by
  constructor
  · obtain ⟨w, hw, hphase⟩ := (Bounded.watched Bounded.oneSlot).exists_of_runVia
      (Permits (Bounded.NoStall Bounded.oneSlot) (Bounded.Fresh Bounded.oneSlot 1))
      (P := fun w => w.phase = .answered (.isFull true)) fullMeanwhile (by decide)
    exact ⟨w, hphase, ((is_empty_truthful_iff Nat).1 Bounded.oneSlot w _ hw).1 hphase⟩
  · obtain ⟨w, -, hw, hphase, hempty⟩ := System.exists_of_run (M := Unbounded.watched)
      (P := fun w => w.phase = .answered (.isEmpty false) ∧
        ∀ u ∈ w.past, u.claims.length = u.popped)
      (blockEnd ++ [.call .isEmpty, .read, .read]) (by decide +kernel)
    have hnot : ¬Truthful (w.past.map Unbounded.State.counts) 0 false := by
      rintro ⟨-, hfalse⟩
      obtain ⟨c, hc, hne⟩ := hfalse rfl
      obtain ⟨u, hu, rfl⟩ := List.mem_map.mp hc
      exact hne (hempty u hu)
    have hends := ((is_empty_truthful_iff Nat).2 w _ hw hphase).1
    exact ⟨w, hphase, not_not.mp (mt hends.mpr hnot)⟩

/-- The queue is empty during the whole call. -/
theorem is_empty_denies_empty :
    ∃ w : Watched (Unbounded.State Nat) Unbounded.ReadPc Answer, Unbounded.watched.Reachable w ∧
      w.phase = .answered (.isEmpty false) ∧ ∀ u ∈ w.past, u.claims.length = u.popped := by
  obtain ⟨w, -, hw, hphase, hempty⟩ := System.exists_of_run (M := Unbounded.watched)
    (P := fun w => w.phase = .answered (.isEmpty false) ∧ ∀ u ∈ w.past, u.claims.length = u.popped)
    (blockEnd ++ [.call .isEmpty, .read, .read]) (by decide +kernel)
  exact ⟨w, hw, hphase, hempty⟩

end Cynthia.Queue
