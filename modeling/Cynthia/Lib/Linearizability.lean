import Mathlib.Data.List.Nodup
import Mathlib.Data.List.Sublists

/-! Linearizability of histories. Every call has a name of its own. A proof keeps a
log of the calls in the order in which they take effect; an entry that changes
nothing may be taken out again as long as its call has not returned. -/

namespace Cynthia.Linearizability

open scoped List

/-- A sequential object. -/
structure Spec (σ ο ρ : Type*) where
  init : σ
  apply : σ → ο → σ × ρ

inductive Event (ο ρ : Type*) where
  | call (id : Nat) (op : ο)
  | ret (id : Nat) (res : ρ)
  deriving DecidableEq

def Event.id {ο ρ : Type*} : Event ο ρ → Nat
  | .call id _ | .ret id _ => id

def Event.isRet {ο ρ : Type*} : Event ο ρ → Bool
  | .call _ _ => false
  | .ret _ _ => true

structure Entry (ο ρ : Type*) where
  id : Nat
  op : ο
  res : ρ
  deriving DecidableEq

variable {σ ο ρ : Type*}

namespace Spec

variable (spec : Spec σ ο ρ)

/-- The state after the operations of the log. -/
def final (log : List (Entry ο ρ)) : σ := log.foldl (fun q e => (spec.apply q e.op).1) spec.init

/-- Every operation has the result that the sequential object gives it. -/
def Legal (log : List (Entry ο ρ)) : Prop :=
  ∀ before e after, log = before ++ e :: after → (spec.apply (spec.final before) e.op).2 = e.res

/-- With this result the operation has changed nothing. -/
def Idle (op : ο) (res : ρ) : Prop :=
  ∀ q, (spec.apply q op).2 = res → (spec.apply q op).1 = q

variable {spec} {log rest : List (Entry ο ρ)} {e : Entry ο ρ}

@[simp] theorem final_nil : spec.final [] = spec.init := rfl

@[simp] theorem final_append_singleton :
    spec.final (log ++ [e]) = (spec.apply (spec.final log) e.op).1 := by
  simp [final]

theorem legal_nil : spec.Legal [] := by
  intro before e after h
  simp at h

theorem Legal.of_append (h : spec.Legal (log ++ rest)) : spec.Legal log := by
  intro before e after heq
  refine h before e (after ++ rest) ?_
  rw [heq]
  simp

theorem legal_append_singleton :
    spec.Legal (log ++ [e]) ↔ spec.Legal log ∧ (spec.apply (spec.final log) e.op).2 = e.res := by
  constructor
  · intro h
    exact ⟨h.of_append, h log e [] rfl⟩
  · rintro ⟨hlog, he⟩ before d after heq
    rcases List.eq_nil_or_concat' after with rfl | ⟨rest, x, rfl⟩
    · obtain ⟨rfl, h⟩ := List.append_inj' heq rfl
      cases h
      exact he
    · rw [← List.cons_append, ← List.append_assoc] at heq
      obtain ⟨rfl, -⟩ := List.append_inj' heq rfl
      exact hlog before d rest rfl

/-- An entry that changes nothing can be taken out. -/
theorem Legal.drop_idle (h : spec.Legal (log ++ e :: rest)) (hidle : spec.Idle e.op e.res) :
    spec.Legal (log ++ rest) ∧ spec.final (log ++ rest) = spec.final (log ++ e :: rest) := by
  induction rest using List.reverseRecOn with
  | nil =>
    have hres := (legal_append_singleton.mp h).2
    refine ⟨by simpa using h.of_append, ?_⟩
    simp [hidle _ hres]
  | append_singleton rest d ih =>
    have hsplit : log ++ e :: (rest ++ [d]) = (log ++ e :: rest) ++ [d] := by simp
    rw [hsplit] at h ⊢
    obtain ⟨hlegal, hd⟩ := legal_append_singleton.mp h
    obtain ⟨hlegal', hfinal⟩ := ih hlegal
    rw [← List.append_assoc]
    refine ⟨legal_append_singleton.mpr ⟨hlegal', hfinal ▸ hd⟩, ?_⟩
    rw [final_append_singleton, final_append_singleton, hfinal]

variable (spec) in
/-- Run the log from a given state and compare the results. -/
def check [DecidableEq ρ] (q : σ) : List (Entry ο ρ) → Bool
  | [] => true
  | e :: rest => (spec.apply q e.op).2 = e.res && check (spec.apply q e.op).1 rest

theorem check_of_legal [DecidableEq ρ] (h : spec.Legal (log ++ rest)) :
    spec.check (spec.final log) rest = true := by
  induction rest generalizing log with
  | nil => rfl
  | cons e rest ih =>
    have hres := h log e rest rfl
    have hrest : spec.check (spec.final (log ++ [e])) rest = true := ih (by simpa using h)
    rw [final_append_singleton] at hrest
    simp [check, hres, hrest]

end Spec

/-- The calls of `order`, taken one after another, answer as in the history and
respect its real-time order. -/
structure Linearization (spec : Spec σ ο ρ) (hist : List (Event ο ρ))
    (order : List (Entry ο ρ)) : Prop where
  nodup : (order.map Entry.id).Nodup
  called : ∀ e ∈ order, .call e.id e.op ∈ hist
  answered : ∀ id res, .ret id res ∈ hist → ∃ op, ⟨id, op, res⟩ ∈ order
  realTime : ∀ d e, d ∈ order → e ∈ order →
    [.ret d.id d.res, .call e.id e.op] <+ hist → [d, e] <+ order
  legal : spec.Legal order

/-- Every call of the history has returned. -/
def Complete (hist : List (Event ο ρ)) : Prop :=
  ∀ e ∈ hist, ∃ f ∈ hist, f.id = e.id ∧ f.isRet = true

instance (hist : List (Event ο ρ)) : Decidable (Complete hist) :=
  inferInstanceAs (Decidable (∀ e ∈ hist, ∃ f ∈ hist, f.id = e.id ∧ f.isRet = true))

theorem Complete.returned {hist : List (Event ο ρ)} (h : Complete hist) {id : Nat} {op : ο}
    (hcall : .call id op ∈ hist) : ∃ res, .ret id res ∈ hist := by
  obtain ⟨f, hf, hid, hret⟩ := h _ hcall
  cases f with
  | call _ _ => cases hret
  | ret _ res =>
    obtain rfl : _ = id := hid
    exact ⟨res, hf⟩

/-- Where every call has returned the order has their results. -/
theorem Linearization.returned {spec : Spec σ ο ρ} {hist : List (Event ο ρ)}
    {order : List (Entry ο ρ)} (h : Linearization spec hist order) (hc : Complete hist)
    {e : Entry ο ρ} (he : e ∈ order) : .ret e.id e.res ∈ hist := by
  obtain ⟨res, hres⟩ := hc.returned (h.called e he)
  obtain ⟨op, hop⟩ := h.answered e.id res hres
  have heq : e = ⟨e.id, op, res⟩ := List.inj_on_of_nodup_map h.nodup he hop rfl
  rw [heq]
  exact hres

/-- What one may do to a history and its log. -/
inductive Logged (spec : Spec σ ο ρ) : List (Event ο ρ) → List (Entry ο ρ) → Prop
  | nil : Logged spec [] []
  | call {hist log} {id : Nat} {op : ο} (h : Logged spec hist log)
      (hfresh : ∀ op', .call id op' ∉ hist) : Logged spec (hist ++ [.call id op]) log
  | commit {hist log} {id : Nat} {op : ο} {res : ρ} (h : Logged spec hist log)
      (hcall : .call id op ∈ hist) (hopen : ∀ res', .ret id res' ∉ hist)
      (hnew : ∀ e ∈ log, e.id ≠ id) (hres : (spec.apply (spec.final log) op).2 = res) :
      Logged spec hist (log ++ [⟨id, op, res⟩])
  | retract {hist} {before after : List (Entry ο ρ)} {e : Entry ο ρ}
      (h : Logged spec hist (before ++ e :: after)) (hopen : ∀ res', .ret e.id res' ∉ hist)
      (hidle : spec.Idle e.op e.res) : Logged spec hist (before ++ after)
  | ret {hist log} {id : Nat} {op : ο} {res : ρ} (h : Logged spec hist log)
      (hmem : ⟨id, op, res⟩ ∈ log) (hopen : ∀ res', .ret id res' ∉ hist) :
      Logged spec (hist ++ [.ret id res]) log

/-- The log without the entry of one call. -/
def without (id : Nat) (log : List (Entry ο ρ)) : List (Entry ο ρ) :=
  log.filter fun e => decide (e.id ≠ id)

theorem mem_without {id : Nat} {log : List (Entry ο ρ)} {e : Entry ο ρ} :
    e ∈ without id log ↔ e ∈ log ∧ e.id ≠ id := by
  simp [without]

theorem mem_without_append {id : Nat} {log : List (Entry ο ρ)} {op : ο} {res : ρ} {e : Entry ο ρ}
    (h : e.id ≠ id) : e ∈ without id log ++ [⟨id, op, res⟩] ↔ e ∈ log := by
  rw [List.mem_append, mem_without, List.mem_singleton]
  constructor
  · rintro (⟨hmem, -⟩ | rfl)
    · exact hmem
    · exact absurd rfl h
  · exact fun hmem => .inl ⟨hmem, h⟩

theorem without_eq_self {id : Nat} {log : List (Entry ο ρ)} (h : ∀ e ∈ log, e.id ≠ id) :
    without id log = log :=
  List.filter_eq_self.mpr fun e he => decide_eq_true (h e he)

theorem without_middle {before after : List (Entry ο ρ)} {x : Entry ο ρ}
    (h : ∀ e ∈ before ++ after, e.id ≠ x.id) :
    without x.id (before ++ x :: after) = before ++ after := by
  rw [without, List.filter_append, List.filter_cons_of_neg (by simp), ← List.filter_append]
  exact without_eq_self h

theorem ne_of_nodup {before after : List (Entry ο ρ)} {x : Entry ο ρ}
    (h : ((before ++ x :: after).map Entry.id).Nodup) : ∀ e ∈ before ++ after, e.id ≠ x.id := by
  rw [List.map_append, List.map_cons, List.nodup_middle, List.nodup_cons, ← List.map_append] at h
  intro e he heq
  exact h.1 (heq ▸ List.mem_map_of_mem he)

section Pairs

variable {β : Type*} {a b x : β} {l : List β}

theorem pair_sublist_append_singleton :
    [a, b] <+ l ++ [x] ↔ [a, b] <+ l ∨ a ∈ l ∧ b = x := by
  constructor
  · intro h
    obtain ⟨l₁, l₂, heq, h₁, h₂⟩ := List.sublist_append_iff.mp h
    rcases List.sublist_singleton.mp h₂ with rfl | rfl
    · rw [List.append_nil] at heq
      exact .inl (heq ▸ h₁)
    · obtain ⟨rfl, hb⟩ := @List.append_inj' _ [a] [b] l₁ [x] heq rfl
      cases hb
      exact .inr ⟨List.singleton_sublist.mp h₁, rfl⟩
  · rintro (h | ⟨h, rfl⟩)
    · exact h.trans (List.sublist_append_left _ _)
    · exact (List.singleton_sublist.mpr h).append (List.Sublist.refl [b])

theorem mem_of_pair_sublist (h : [a, b] <+ l) : a ∈ l ∧ b ∈ l :=
  ⟨h.subset (by simp), h.subset (by simp)⟩

end Pairs

variable {spec : Spec σ ο ρ} {hist : List (Event ο ρ)} {log : List (Entry ο ρ)}

theorem Linearization.call (h : Linearization spec hist log) {id : Nat} {op : ο}
    (hfresh : ∀ op', .call id op' ∉ hist) : Linearization spec (hist ++ [.call id op]) log where
  nodup := h.nodup
  called e he := List.mem_append_left _ (h.called e he)
  answered id' res hret := h.answered id' res (by simpa using hret)
  realTime d e hd he hpair := by
    rcases pair_sublist_append_singleton.mp hpair with hold | ⟨-, hlast⟩
    · exact h.realTime d e hd he hold
    · cases hlast
      exact absurd (h.called e he) (hfresh e.op)
  legal := h.legal

theorem Linearization.commit (h : Linearization spec hist log) {id : Nat} {op : ο} {res : ρ}
    (hcall : .call id op ∈ hist) (hopen : ∀ res', .ret id res' ∉ hist)
    (hnew : ∀ e ∈ log, e.id ≠ id) (hres : (spec.apply (spec.final log) op).2 = res) :
    Linearization spec hist (log ++ [⟨id, op, res⟩]) where
  nodup := by
    rw [List.map_append, List.nodup_append]
    refine ⟨h.nodup, by simp, ?_⟩
    intro i hi j hj
    obtain ⟨e, he, rfl⟩ := List.mem_map.mp hi
    rw [List.map_singleton, List.mem_singleton] at hj
    exact hj ▸ hnew e he
  called e he := by
    rcases List.mem_append.mp he with he | he
    · exact h.called e he
    · rw [List.mem_singleton.mp he]
      exact hcall
  answered id' res' hret := by
    obtain ⟨op', hmem⟩ := h.answered id' res' hret
    exact ⟨op', List.mem_append_left _ hmem⟩
  realTime d e hd he hpair := by
    have hret := (mem_of_pair_sublist hpair).1
    have hdlog : d ∈ log := by
      rcases List.mem_append.mp hd with hd | hd
      · exact hd
      · rw [List.mem_singleton.mp hd] at hret
        exact absurd hret (hopen _)
    refine pair_sublist_append_singleton.mpr ?_
    rcases List.mem_append.mp he with he | he
    · exact .inl (h.realTime d e hdlog he hpair)
    · exact .inr ⟨hdlog, List.mem_singleton.mp he⟩
  legal := Spec.legal_append_singleton.mpr ⟨h.legal, hres⟩

theorem Linearization.retract {before after : List (Entry ο ρ)} {x : Entry ο ρ}
    (h : Linearization spec hist (before ++ x :: after)) (hopen : ∀ res', .ret x.id res' ∉ hist)
    (hidle : spec.Idle x.op x.res) : Linearization spec hist (before ++ after) := by
  have hsub : (before ++ after) <+ (before ++ x :: after) :=
    (List.Sublist.refl before).append (List.sublist_cons_self x after)
  have hne := ne_of_nodup h.nodup
  constructor
  · exact h.nodup.sublist (hsub.map Entry.id)
  · exact fun e he => h.called e (hsub.subset he)
  · intro id res hret
    obtain ⟨op, hmem⟩ := h.answered id res hret
    refine ⟨op, ?_⟩
    rcases List.mem_append.mp hmem with hmem | hmem
    · exact List.mem_append_left _ hmem
    · rcases List.mem_cons.mp hmem with rfl | hmem
      · exact absurd hret (hopen res)
      · exact List.mem_append_right _ hmem
  · intro d e hd he hpair
    have hboth := h.realTime d e (hsub.subset hd) (hsub.subset he) hpair
    have hkept : without x.id [d, e] <+ without x.id (before ++ x :: after) := hboth.filter _
    rw [without_middle hne, without_eq_self] at hkept
    · exact hkept
    · intro y hy
      rcases List.mem_cons.mp hy with rfl | hy
      · exact hne _ hd
      · rw [List.mem_singleton.mp hy]
        exact hne _ he
  · exact (h.legal.drop_idle hidle).1

theorem Linearization.ret (h : Linearization spec hist log) {id : Nat} {op : ο} {res : ρ}
    (hmem : ⟨id, op, res⟩ ∈ log) : Linearization spec (hist ++ [.ret id res]) log where
  nodup := h.nodup
  called e he := List.mem_append_left _ (h.called e he)
  answered id' res' hret := by
    rcases List.mem_append.mp hret with hret | hret
    · exact h.answered id' res' hret
    · cases List.mem_singleton.mp hret
      exact ⟨op, hmem⟩
  realTime d e hd he hpair := by
    rcases pair_sublist_append_singleton.mp hpair with hold | ⟨-, hlast⟩
    · exact h.realTime d e hd he hold
    · cases hlast
  legal := h.legal

/-- A call that has returned is there with the result that it returned. -/
theorem Linearization.mem_of_ret (h : Linearization spec hist log) {e : Entry ο ρ}
    (he : e ∈ log) (res : ρ) (hret : .ret e.id res ∈ hist) : e.res = res := by
  obtain ⟨op, hmem⟩ := h.answered e.id res hret
  rw [List.inj_on_of_nodup_map h.nodup he hmem rfl]

/-- The log of a history is a linearization of it. -/
theorem Logged.linearization (h : Logged spec hist log) : Linearization spec hist log := by
  induction h with
  | nil => exact ⟨by simp, by simp, by simp, by simp, Spec.legal_nil⟩
  | call _ hfresh ih => exact ih.call hfresh
  | commit _ hcall hopen hnew hres ih => exact ih.commit hcall hopen hnew hres
  | retract _ hopen hidle ih => exact ih.retract hopen hidle
  | ret _ hmem _ ih => exact ih.ret hmem

/-- Take out the entry of a call, if it has one. -/
theorem Logged.without (h : Logged spec hist log) {id : Nat} (hopen : ∀ res, .ret id res ∉ hist)
    (hidle : ∀ e ∈ log, e.id = id → spec.Idle e.op e.res) :
    Logged spec hist (without id log) ∧ spec.final (Linearizability.without id log) =
      spec.final log := by
  by_cases hin : ∃ e ∈ log, e.id = id
  · obtain ⟨e, hmem, rfl⟩ := hin
    obtain ⟨before, after, rfl⟩ := List.append_of_mem hmem
    rw [without_middle (ne_of_nodup h.linearization.nodup)]
    exact ⟨h.retract hopen (hidle e hmem rfl),
      (h.linearization.legal.drop_idle (hidle e hmem rfl)).2⟩
  · rw [without_eq_self fun d hd heq => hin ⟨d, hd, heq⟩]
    exact ⟨h, rfl⟩

/-- Replace the entry of a call, if it has one, by the one that counts. -/
theorem Logged.recommit (h : Logged spec hist log) {id : Nat} {op : ο} (res : ρ)
    (hcall : .call id op ∈ hist) (hopen : ∀ res', .ret id res' ∉ hist)
    (hidle : ∀ e ∈ log, e.id = id → spec.Idle e.op e.res)
    (hres : (spec.apply (spec.final log) op).2 = res) :
    Logged spec hist (Linearizability.without id log ++ [⟨id, op, res⟩]) ∧
      spec.final (Linearizability.without id log ++ [⟨id, op, res⟩]) =
        (spec.apply (spec.final log) op).1 := by
  obtain ⟨hlogged, hfinal⟩ := h.without hopen hidle
  rw [Spec.final_append_singleton, hfinal]
  refine ⟨hlogged.commit hcall hopen (fun e he => (mem_without.mp he).2) ?_, rfl⟩
  rw [hfinal]
  exact hres

/-- Calls that would change nothing may all take effect now. -/
theorem Logged.commit_idle (h : Logged spec hist log) {new : List (Entry ο ρ)}
    (hcall : ∀ e ∈ new, .call e.id e.op ∈ hist) (hopen : ∀ e ∈ new, ∀ res, .ret e.id res ∉ hist)
    (hnodup : (new.map Entry.id).Nodup) (hnew : ∀ e ∈ new, ∀ d ∈ log, d.id ≠ e.id)
    (hres : ∀ e ∈ new, spec.apply (spec.final log) e.op = (spec.final log, e.res)) :
    Logged spec hist (log ++ new) ∧ spec.final (log ++ new) = spec.final log := by
  induction new generalizing log with
  | nil =>
    rw [List.append_nil]
    exact ⟨h, rfl⟩
  | cons e rest ih =>
    have he := List.mem_cons_self (a := e) (l := rest)
    have hfinal : spec.final (log ++ [e]) = spec.final log := by
      rw [Spec.final_append_singleton, hres e he]
    have hlogged : Logged spec hist (log ++ [e]) :=
      h.commit (hcall e he) (hopen e he) (hnew e he) (by rw [hres e he])
    rw [List.map_cons, List.nodup_cons] at hnodup
    obtain ⟨hall, hsame⟩ := ih hlogged (fun d hd => hcall d (List.mem_cons_of_mem _ hd))
      (fun d hd => hopen d (List.mem_cons_of_mem _ hd)) hnodup.2
      (fun d hd c hc => by
        rcases List.mem_append.mp hc with hc | hc
        · exact hnew d (List.mem_cons_of_mem _ hd) c hc
        · rw [List.mem_singleton.mp hc]
          exact fun heq => hnodup.1 (heq ▸ List.mem_map_of_mem hd))
      (fun d hd => by rw [hfinal]; exact hres d (List.mem_cons_of_mem _ hd))
    rw [List.append_assoc] at hall hsame
    exact ⟨hall, hsame.trans hfinal⟩

end Cynthia.Linearizability
