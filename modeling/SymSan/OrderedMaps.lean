import Mathlib.Data.List.Basic

/-!
# Ordered maps

A finite map from natural numbers together with its keys in increasing order. The
order and the agreement of the two views are part of the structure.
-/

namespace OrderedMaps

variable {keys : List Nat} {k n start x : Nat}

universe u

structure OrderedMap (β : Type u) where
  keys : List Nat
  find : Nat → Option β
  sorted : keys.Pairwise (· < ·)
  mem_keys : ∀ k, k ∈ keys ↔ (find k).isSome = true

/-- Insert a key where it belongs; a key that is there stays. -/
def insertKey (k : Nat) : List Nat → List Nat
  | [] => [k]
  | x :: rest =>
    if k < x then k :: x :: rest
    else if k = x then x :: rest
    else x :: insertKey k rest

lemma mem_insertKey : x ∈ insertKey k keys ↔ x = k ∨ x ∈ keys := by
  induction keys with
  | nil => simp [insertKey]
  | cons y rest ih =>
    simp only [insertKey]
    split
    · exact List.mem_cons
    split
    next same =>
      simp [same]
    · simp only [List.mem_cons, ih]
      exact or_left_comm

section

variable (sorted : keys.Pairwise (· < ·))

include sorted

lemma insertKey_sorted : (insertKey k keys).Pairwise (· < ·) := by
  induction keys with
  | nil => exact List.pairwise_singleton _ _
  | cons y rest ih =>
    obtain ⟨first, tail⟩ := List.pairwise_cons.mp sorted
    simp only [insertKey]
    split
    next lt =>
      refine List.pairwise_cons.mpr ⟨fun x member => ?_, sorted⟩
      rcases List.mem_cons.mp member with rfl | later
      · exact lt
      · exact Nat.lt_trans lt (first x later)
    · split
      · exact sorted
      · refine List.pairwise_cons.mpr ⟨fun x member => ?_, ih tail⟩
        rcases mem_insertKey.mp member with rfl | later
        · omega
        · exact first x later

/-- Increasing keys from `start` on that include the next `n` numbers begin with them. -/
lemma take_run (low : ∀ x ∈ keys, start ≤ x) (run : ∀ k < n, start + k ∈ keys) :
    keys.take n = List.range' start n := by
  induction n generalizing keys start with
  | zero => rw [List.take_zero, List.range'_zero]
  | succ n ih =>
    rcases keys with _ | ⟨y, rest⟩
    · exact absurd (run 0 (Nat.succ_pos n)) List.not_mem_nil
    obtain ⟨first, tail⟩ := List.pairwise_cons.mp sorted
    have head : y = start := by
      have ge := low y List.mem_cons_self
      rcases List.mem_cons.mp (run 0 (Nat.succ_pos n)) with same | later
      · exact same.symm
      · have lt := first _ later
        omega
    subst head
    rw [List.take_succ_cons, List.range'_succ, ih tail first]
    intro k lt
    rcases List.mem_cons.mp (run (k + 1) (Nat.succ_lt_succ lt)) with same | later
    · omega
    · rw [Nat.succ_add_eq_add_succ]
      exact later

lemma mem_drop_run (run : keys.take n = List.range' start n) :
    x ∈ keys.drop n ↔ x ∈ keys ∧ ∀ y < start + n, start ≤ y → y < x := by
  have whole := List.take_append_drop n keys
  rw [run] at whole
  rw [← whole] at sorted
  obtain ⟨-, -, between⟩ := List.pairwise_append.mp sorted
  constructor
  · intro later
    refine ⟨List.mem_of_mem_drop later, fun y high low => ?_⟩
    exact between y (List.mem_range'_1.mpr ⟨low, high⟩) x later
  rintro ⟨member, above⟩
  rw [← whole] at member
  rcases List.mem_append.mp member with inside | later
  · obtain ⟨low, high⟩ := List.mem_range'_1.mp inside
    exact absurd (above x high low) (Nat.lt_irrefl x)
  · exact later

end

namespace OrderedMap

variable {β : Type u}

def empty : OrderedMap β := ⟨[], fun _ => none, .nil, fun k => by simp⟩

/-- The value replaces one that the key has. -/
def insert (m : OrderedMap β) (k : Nat) (v : β) : OrderedMap β where
  keys := insertKey k m.keys
  find x := if x = k then some v else m.find x
  sorted := insertKey_sorted m.sorted
  mem_keys x := by
    rw [mem_insertKey, m.mem_keys]
    by_cases same : x = k <;> simp [same]

/-- Keys and values in the order of the keys. -/
def entries (m : OrderedMap β) : List (Nat × β) :=
  m.keys.filterMap fun k => (m.find k).map (k, ·)

variable (m : OrderedMap β) {v : β}

lemma find_insert (k x : Nat) (v : β) :
    (m.insert k v).find x = if x = k then some v else m.find x := rfl

lemma mem_entries {m : OrderedMap β} : (k, v) ∈ m.entries ↔ m.find k = some v := by
  simp only [entries, List.mem_filterMap, Option.map_eq_some_iff, Prod.mk.injEq]
  constructor
  · rintro ⟨x, -, w, found, rfl, rfl⟩
    exact found
  · intro found
    exact ⟨k, (m.mem_keys k).mpr (by rw [found]; rfl), v, found, rfl, rfl⟩

lemma entries_sorted : m.entries.Pairwise (fun a b => a.1 < b.1) := by
  refine .filterMap _ (fun x y lt a first b second => ?_) m.sorted
  obtain ⟨_, -, rfl⟩ := Option.map_eq_some_iff.mp first
  obtain ⟨_, -, rfl⟩ := Option.map_eq_some_iff.mp second
  exact lt

lemma entries_eq_map (d : β) : m.entries = m.keys.map fun k => (k, (m.find k).getD d) := by
  rw [← List.filterMap_eq_map]
  refine List.filterMap_congr fun k member => ?_
  obtain ⟨v, found⟩ := Option.isSome_iff_exists.mp ((m.mem_keys k).mp member)
  simp [found]

section Inserts

variable {α : Type u} {key : α → Nat} {value : α → β} {l : List α}

lemma find_inserts_of_absent (absent : ∀ a ∈ l, key a ≠ k) (m : OrderedMap β) :
    (l.foldl (fun m a => m.insert (key a) (value a)) m).find k = m.find k := by
  induction l generalizing m with
  | nil => rfl
  | cons a rest ih =>
    rw [List.foldl_cons, ih fun b member => absent b (List.mem_cons_of_mem _ member), find_insert,
      if_neg (absent a List.mem_cons_self).symm]

lemma find_inserts (same : ∀ a ∈ l, key a = k → value a = v) (m : OrderedMap β)
    (there : m.find k = some v ∨ ∃ a ∈ l, key a = k) :
    (l.foldl (fun m a => m.insert (key a) (value a)) m).find k = some v := by
  induction l generalizing m with
  | nil =>
    rcases there with found | ⟨a, member, -⟩
    · exact found
    · cases member
  | cons a rest ih =>
    refine ih (fun b member => same b (List.mem_cons_of_mem _ member)) _ ?_
    by_cases here : key a = k
    · exact .inl (by rw [find_insert, if_pos here.symm, same a List.mem_cons_self here])
    rcases there with found | ⟨b, member, eq⟩
    · exact .inl (by rw [find_insert, if_neg (Ne.symm here), found])
    · rcases List.mem_cons.mp member with rfl | later
      · exact absurd eq here
      · exact .inr ⟨b, later, eq⟩

end Inserts

end OrderedMap

end OrderedMaps
