import Mathlib.Data.List.Basic

/-!
# Association lists

Finite maps as lists of pairs, of which `List.lookup` finds the first:
assigning to a key (`assign`) and forgetting one (`forget`).
-/

namespace Assoc

variable {κ α : Type*} [DecidableEq κ]

/-- The list with `k` mapped to `a`: in its place if there is one, else last. -/
def assign (k : κ) (a : α) : List (κ × α) → List (κ × α)
  | [] => [(k, a)]
  | (k', a') :: l => if k = k' then (k, a) :: l else (k', a') :: assign k a l

/-- The list without `k`. -/
def forget (k : κ) (l : List (κ × α)) : List (κ × α) := l.filter fun p => p.1 ≠ k

theorem mem_assign {k : κ} {a : α} {l : List (κ × α)} {p : κ × α} (h : p ∈ assign k a l) :
    p = (k, a) ∨ p ∈ l := by
  induction l with
  | nil => exact .inl (List.mem_singleton.1 h)
  | cons q l ih =>
    rw [assign] at h
    split at h
    · exact (List.mem_cons.1 h).imp_right (List.mem_cons_of_mem _)
    · obtain h | h := List.mem_cons.1 h
      · exact .inr (h ▸ List.mem_cons_self)
      · exact (ih h).imp_right (List.mem_cons_of_mem _)

theorem mem_of_mem_forget {k : κ} {l : List (κ × α)} {p : κ × α} (h : p ∈ forget k l) : p ∈ l :=
  (List.mem_filter.1 h).1

variable [BEq κ] [LawfulBEq κ]

theorem lookup_cons (k : κ) (p : κ × α) (l : List (κ × α)) :
    (p :: l).lookup k = if k = p.1 then some p.2 else l.lookup k := by
  rw [List.lookup_cons]
  by_cases h : k = p.1
  · rw [beq_iff_eq.2 h, if_pos h]
  · rw [beq_eq_false_iff_ne.2 h, if_neg h]

theorem lookup_assign (k k' : κ) (a : α) (l : List (κ × α)) :
    (assign k a l).lookup k' = if k' = k then some a else l.lookup k' := by
  induction l with
  | nil => rw [assign, lookup_cons]
  | cons p l ih =>
    rw [assign]
    split
    · next hk => rw [lookup_cons, lookup_cons, ← hk]; split <;> rfl
    · next hk => rw [lookup_cons, lookup_cons, ih]; grind

@[simp] theorem lookup_assign_self (k : κ) (a : α) (l : List (κ × α)) :
    (assign k a l).lookup k = some a := by rw [lookup_assign, if_pos rfl]

theorem mem_of_lookup {k : κ} {a : α} {l : List (κ × α)} (h : l.lookup k = some a) :
    (k, a) ∈ l := by
  induction l with
  | nil => simp at h
  | cons p l ih =>
    rw [lookup_cons] at h
    split at h
    · next hk => cases h; rw [hk]; exact List.mem_cons_self
    · exact List.mem_cons_of_mem _ (ih h)

end Assoc
