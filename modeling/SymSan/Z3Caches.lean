import SymSan.TableGrowth
import SymSan.Z3Soundness

/-!
# The caches of the Z3 translation

The caches are kept over all calls since a restart, successful or not. A call
that throws leaves one set of dependencies without an expression; the label it
threw at throws again, and no later label is translated, unless the missing
content of a memory comparison is recorded in between. `Reached` leaves out that
one case, in which expressions and dependencies get out of step.
-/

namespace Z3Caches

open Denotation TypedLabels BitTerms Z3Parser Z3Soundness

/-- Caches that calls since a restart can lead to. A content is not recorded for
a label whose translation has failed already. -/
inductive Reached (p : Parser) : Caches → Prop where
  | restart : Reached p Caches.restart
  | serialize {c : Caches} (before : Reached p c) (label : Nat) (deps : Deps) :
      Reached p (serialize p c label deps).2
  | recordMemcmp {c : Caches} (before : Reached p c) (l : Nat) (content : Nat → BitVec 8)
      (early : l ≠ c.exprs.length ∨ c.deps.length = c.exprs.length) :
      Reached p (c.recordMemcmp l content)

/-- What the translation of label `k` could see of the caches. -/
def seenAt (c : Caches) (k : Nat) : Lookup := fun j => if j < k then c.lookup j else none

structure Consistent (p : Parser) (c : Caches) : Prop where
  entries : ∀ k, 1 ≤ k → k < c.exprs.length → ∃ content,
    translate p (seenAt c k) content k ∅ = (some (c.exprs.getD k none), c.deps.getD k ∅)
  counted : c.deps.length = c.exprs.length ∨ c.exprs.length < c.deps.length ∧
    (translate p c.lookup (c.memcmp c.exprs.length) c.exprs.length ∅).1 = none

section Invariant

variable {p : Parser} {c : Caches} {l : Nat}

lemma lookup_of_le (le : c.exprs.length ≤ l) : c.lookup l = none := by
  simp only [Caches.lookup, List.getD_eq_default _ _ le, Option.map_none]

lemma seenAt_length (c : Caches) : seenAt c c.exprs.length = c.lookup := by
  funext j
  by_cases inside : j < c.exprs.length
  · simp only [seenAt, if_pos inside]
  · simp only [seenAt, if_neg inside]
    exact (lookup_of_le (by omega)).symm

lemma seenAt_congr {c' : Caches} {k : Nat}
    (exprs : ∀ j < k, c'.exprs.getD j none = c.exprs.getD j none)
    (deps : ∀ j < k, c'.deps.getD j ∅ = c.deps.getD j ∅) : seenAt c' k = seenAt c k := by
  funext j
  by_cases inside : j < k
  · simp only [seenAt, Caches.lookup, exprs j inside, deps j inside]
  · simp only [seenAt, if_neg inside]

lemma restart_consistent (p : Parser) : Consistent p Caches.restart where
  entries := by
    intro k pos lt
    simp only [Caches.restart, List.length_singleton] at lt
    omega
  counted := .inl rfl

lemma Consistent.deps_le (con : Consistent p c) : c.exprs.length ≤ c.deps.length := by
  rcases con.counted with same | ⟨longer, _⟩
  · omega
  · omega

lemma scanStep_consistent (con : Consistent p c) : Consistent p (scanStep p c).2 := by
  have depsLe := con.deps_le
  cases step : translate p c.lookup (c.memcmp c.exprs.length) c.exprs.length ∅ with
  | mk made d =>
    cases made with
    | none =>
      have same : ∀ k ≤ c.exprs.length,
          seenAt { c with deps := c.deps ++ [d] } k = seenAt c k := by
        intro k le
        exact seenAt_congr (fun _ _ => rfl) (fun j lt => List.getD_append _ _ _ _ (by omega))
      simp only [scanStep, step]
      constructor
      · intro k pos lt
        obtain ⟨content, entry⟩ := con.entries k pos lt
        simp only at lt
        refine ⟨content, ?_⟩
        rw [same k (by omega), List.getD_append _ _ _ _ (by omega)]
        exact entry
      · right
        refine ⟨by simp only [List.length_append, List.length_singleton]; omega, ?_⟩
        have again := seenAt_length { c with deps := c.deps ++ [d] }
        rw [← again, same _ (Nat.le_refl _), seenAt_length, step]
    | some e =>
      have aligned : c.deps.length = c.exprs.length := by
        rcases con.counted with aligned | ⟨_, stuck⟩
        · exact aligned
        · rw [step] at stuck
          cases stuck
      have same : ∀ k ≤ c.exprs.length,
          seenAt { c with exprs := c.exprs ++ [e], deps := c.deps ++ [d] } k = seenAt c k := by
        intro k le
        exact seenAt_congr (fun j lt => List.getD_append _ _ _ _ (by omega))
          (fun j lt => List.getD_append _ _ _ _ (by omega))
      simp only [scanStep, step]
      constructor
      · intro k pos lt
        simp only [List.length_append, List.length_singleton] at lt
        rw [same k (by omega)]
        by_cases new : k = c.exprs.length
        · subst new
          refine ⟨c.memcmp c.exprs.length, ?_⟩
          rw [seenAt_length, step]
          simp [← aligned]
        · obtain ⟨content, entry⟩ := con.entries k pos (by omega)
          refine ⟨content, ?_⟩
          rw [List.getD_append _ _ _ _ (by omega), List.getD_append _ _ _ _ (by omega)]
          exact entry
      · left
        simp [aligned]

lemma scanTo_consistent {n : Nat} (con : Consistent p c) : Consistent p (scanTo p n c).2 := by
  induction n generalizing c with
  | zero => exact con
  | succ n ih =>
    have step := scanStep_consistent con
    simp only [scanTo]
    split
    next c' h =>
      rw [h] at step
      exact ih step
    next c' h =>
      rw [h] at step
      exact step

lemma serialize_consistent (label : Nat) (deps : Deps) (con : Consistent p c) :
    Consistent p (serialize p c label deps).2 := by
  simp only [serialize]
  split
  · exact con
  have scanned := scanTo_consistent (n := label + 1 - c.exprs.length) con
  split
  next c' h =>
    rw [h] at scanned
    exact scanned
  next c' h =>
    rw [h] at scanned
    split
    · exact scanned
    · exact scanned

lemma recordMemcmp_consistent {content : Nat → BitVec 8} (con : Consistent p c)
    (early : l ≠ c.exprs.length ∨ c.deps.length = c.exprs.length) :
    Consistent p (c.recordMemcmp l content) := by
  refine ⟨con.entries, ?_⟩
  rcases con.counted with aligned | ⟨longer, stuck⟩
  · exact .inl aligned
  rcases early with other | aligned
  · refine .inr ⟨longer, ?_⟩
    have kept : (c.recordMemcmp l content).memcmp c.exprs.length = c.memcmp c.exprs.length := by
      simp [Caches.recordMemcmp, Ne.symm other]
    exact kept ▸ stuck
  · exact .inl aligned

lemma Reached.consistent (reached : Reached p c) : Consistent p c := by
  induction reached with
  | restart => exact restart_consistent p
  | serialize _ label deps ih => exact serialize_consistent label deps ih
  | recordMemcmp _ l content early ih => exact recordMemcmp_consistent ih early

end Invariant

/-! ## Whole sub-DAGs -/

section Dags

variable {p : Parser} {c : Caches} {l : Nat} {e : Expr Name} {ds : Deps}

lemma Consistent.entry (con : Consistent p c) (ne : l ≠ 0) (h : c.lookup l = some (e, ds)) :
    ∃ content, translate p (seenAt c l) content l ∅ = (some (some e), ds) := by
  have inside : l < c.exprs.length := by
    by_contra outside
    rw [lookup_of_le (by omega)] at h
    cases h
  obtain ⟨content, entry⟩ := con.entries l (by omega) inside
  obtain ⟨_, made, pair⟩ := Option.map_eq_some_iff.mp h
  cases pair
  rw [made] at entry
  exact ⟨content, entry⟩

lemma seenAt_of_lt {k j : Nat} (lt : j < k) : seenAt c k j = c.lookup j := if_pos lt

section

variable (con : Consistent p c) (wt : WellTyped p.info l) (h : c.lookup l = some (e, ds))

include con wt h

lemma deps_iff_occurs (o : Nat × Nat) : o ∈ ds ↔ Occurs p.info l o := by
  induction l using Nat.strong_induction_on generalizing e ds with
  | _ l ih =>
    obtain ⟨ne, ordered, typed, _⟩ := wt.root
    obtain ⟨_, entry⟩ := con.entry ne h
    by_cases input : (p.info l).op = .input
    · obtain ⟨_, rfl⟩ := translate_input input entry
      simp only [Typed, input] at typed
      rw [occurs_iff]
      simp [typed.1, typed.2.1]
    by_cases load : (p.info l).op = .load
    · obtain ⟨_, rfl⟩ := translate_load load entry
      simp only [Typed, load] at typed
      obtain ⟨symbolic, raw, _, _⟩ := typed
      have own : loadDeps ((p.info (p.info l).l1).op2 % 2 ^ 32)
          ((p.info (p.info l).l1).op1 % 2 ^ 32) ((p.info l).l2 - 1) = ownInputs p.info l := by
        simp [loadDeps, ownInputs, load, show (p.info l).l2 - 1 + 1 = (p.info l).l2 by omega]
      -- the first byte of a Load is its raw operand
      have first : ∀ o, Occurs p.info (p.info l).l1 o → o ∈ ownInputs p.info l := by
        intro o occurs
        have typed1 := (wt.first symbolic).root.2.2.1
        simp only [Typed, raw] at typed1
        rw [occurs_iff] at occurs
        simp only [typed1.1, typed1.2.1, ne_eq, not_true, false_and, or_false, ownInputs, raw,
          Finset.mem_singleton] at occurs
        simp only [ownInputs, load, Finset.mem_image, Finset.mem_range]
        exact ⟨0, by omega, by rw [occurs, Nat.add_zero]⟩
      rw [own, occurs_iff]
      constructor
      · exact .inl
      · rintro (mem | ⟨_, occurs⟩ | ⟨_, notLoad, _⟩)
        · exact mem
        · exact first o occurs
        · exact absurd load notLoad
    · have lt1 : (p.info l).l1 < l := ordered.1
      have lt2 : (p.info l).l2 < l := ordered.2 load
      obtain ⟨reads, deps⟩ := step_operands wt load entry
      rw [deps input, occurs_iff, seenAt_of_lt lt1, seenAt_of_lt lt2]
      rw [seenAt_of_lt lt1, seenAt_of_lt lt2] at reads
      have side : ∀ k < l, (k ≠ 0 → ∃ entry, c.lookup k = some entry) →
          (k ≠ 0 → WellTyped p.info k) →
          ((k ≠ 0 ∧ ∃ e ds, c.lookup k = some (e, ds) ∧ o ∈ ds) ↔
            (k ≠ 0 ∧ Occurs p.info k o)) := by
        intro k lt cached wtk
        constructor
        · rintro ⟨symbolic, e', ds', found, mem⟩
          exact ⟨symbolic, (ih k lt (wtk symbolic) found).mp mem⟩
        · rintro ⟨symbolic, occurs⟩
          obtain ⟨⟨e', ds'⟩, found⟩ := cached symbolic
          exact ⟨symbolic, e', ds', found, (ih k lt (wtk symbolic) found).mpr occurs⟩
      rw [side _ lt1 reads.1 wt.first, side _ lt2 reads.2 (fun h => wt.second h load)]
      simp [ownInputs_eq_empty input load, load]

lemma cached_of_inDag {k : Nat} (reach : InDag p.info l k) :
    ∃ entry, c.lookup k = some entry := by
  induction reach generalizing e ds with
  | self => exact ⟨_, h⟩
  | @first l k symbolic rest ih =>
    obtain ⟨ne, ordered, typed, _⟩ := wt.root
    obtain ⟨_, entry⟩ := con.entry ne h
    have cached : ∃ entry, c.lookup (p.info l).l1 = some entry := by
      by_cases load : (p.info l).op = .load
      · -- a raw label before a cached one is cached
        simp only [Typed, load] at typed
        have inside : (p.info l).l1 < c.exprs.length := by
          by_contra outside
          have := ordered.1
          rw [lookup_of_le (by omega)] at h
          cases h
        obtain ⟨_, entry'⟩ := con.entries (p.info l).l1 (by omega) inside
        obtain ⟨made, _⟩ := translate_input typed.2.1 entry'
        simp only [Caches.lookup, made]
        exact ⟨_, rfl⟩
      · have reads := (step_operands wt load entry).1.1 symbolic
        rwa [seenAt_of_lt ordered.1] at reads
    obtain ⟨⟨_, _⟩, found⟩ := cached
    exact ih (wt.first symbolic) found
  | @second l k symbolic notLoad rest ih =>
    obtain ⟨ne, ordered, _, _⟩ := wt.root
    obtain ⟨_, entry⟩ := con.entry ne h
    have reads := (step_operands wt notLoad entry).1.2 symbolic
    rw [seenAt_of_lt (ordered.2 notLoad)] at reads
    obtain ⟨⟨_, _⟩, found⟩ := reads
    exact ih (wt.second symbolic notLoad) found

end

/-- A label is cached as an expression of its width and value. -/
def Translated (p : Parser) (c : Caches) (k : Nat) : Prop :=
  ∃ e ds, c.lookup k = some (e, ds) ∧ Represents p.info e k

lemma Translated.prior (con : Consistent p c) {k : Nat} (lt : k < l)
    (translated : k ≠ 0 → Translated p c k) : Prior p.info (seenAt c l) k := by
  refine ⟨fun ne e ds found => ?_, fun ne e ds found icmp => ?_⟩
  · rw [seenAt_of_lt lt] at found
    obtain ⟨_, _, found', rep⟩ := translated ne
    rw [found] at found'
    cases found'
    exact rep
  · rw [seenAt_of_lt lt] at found
    obtain ⟨_, entry⟩ := con.entry ne found
    exact step_bool icmp entry

variable (con : Consistent p c) (wt : WellTyped p.info l) (h : c.lookup l = some (e, ds))

include con wt h

/-- On translated operands a cached label is translated if and only if the
constant of a Concat fits. -/
lemma translated_iff (first : (p.info l).l1 ≠ 0 → Translated p c (p.info l).l1)
    (second : (p.info l).op ≠ .load → (p.info l).l2 ≠ 0 → Translated p c (p.info l).l2) :
    ConstantFits p.info (p.info l) ↔ Translated p c l := by
  obtain ⟨ne, ordered, _, _⟩ := wt.root
  obtain ⟨_, entry⟩ := con.entry ne h
  have step := step_represents_iff wt (Translated.prior con ordered.1 first)
    (fun notLoad => Translated.prior con (ordered.2 notLoad) (second notLoad)) entry
  rw [step]
  constructor
  · intro rep
    exact ⟨e, ds, h, rep⟩
  · rintro ⟨e', ds', found, rep⟩
    rw [h] at found
    cases found
    exact rep

lemma translated_of_fits (fits : ∀ k, InDag p.info l k → ConstantFits p.info (p.info k)) :
    Translated p c l := by
  induction l using Nat.strong_induction_on generalizing e ds with
  | _ l ih =>
    obtain ⟨root, fits1, fits2⟩ := forall_inDag.mp fits
    have ordered := wt.root.2.1
    refine (translated_iff con wt h ?_ ?_).mp root
    · intro symbolic
      obtain ⟨⟨_, _⟩, found⟩ := cached_of_inDag con wt h (.first symbolic .self)
      exact ih _ ordered.1 (wt.first symbolic) found (fits1 symbolic)
    · intro notLoad symbolic
      obtain ⟨⟨_, _⟩, found⟩ := cached_of_inDag con wt h (.second symbolic notLoad .self)
      exact ih _ (ordered.2 notLoad) (wt.second symbolic notLoad) found (fits2 symbolic notLoad)

/-- All of a cached sub-DAG is translated if and only if every constant fits. -/
lemma dag_translated_iff :
    (∀ k, InDag p.info l k → Translated p c k) ↔
      ∀ k, InDag p.info l k → ConstantFits p.info (p.info k) := by
  constructor
  · intro all
    induction l using Nat.strong_induction_on generalizing e ds with
    | _ l ih =>
      obtain ⟨root, all1, all2⟩ := forall_inDag.mp all
      have ordered := wt.root.2.1
      refine forall_inDag.mpr ⟨?_, ?_, ?_⟩
      · refine (translated_iff con wt h ?_ ?_).mpr root
        · intro symbolic
          exact all1 symbolic _ .self
        · intro notLoad symbolic
          exact all2 symbolic notLoad _ .self
      · intro symbolic
        obtain ⟨e', ds', found, _⟩ := all1 symbolic _ .self
        exact ih _ ordered.1 (wt.first symbolic) found (all1 symbolic)
      · intro symbolic notLoad
        obtain ⟨e', ds', found, _⟩ := all2 symbolic notLoad _ .self
        exact ih _ (ordered.2 notLoad) (wt.second symbolic notLoad) found (all2 symbolic notLoad)
  · intro fits k reach
    induction reach generalizing e ds with
    | self => exact translated_of_fits con wt h fits
    | first symbolic rest ih =>
      obtain ⟨⟨_, _⟩, found⟩ := cached_of_inDag con wt h (.first symbolic .self)
      exact ih (wt.first symbolic) found ((forall_inDag.mp fits).2.1 symbolic)
    | second symbolic notLoad rest ih =>
      obtain ⟨⟨_, _⟩, found⟩ := cached_of_inDag con wt h (.second symbolic notLoad .self)
      exact ih (wt.second symbolic notLoad) found ((forall_inDag.mp fits).2.2 symbolic notLoad)

end Dags

lemma serialize_some {p : Parser} {c c' : Caches} {label : Nat} {deps deps' : Deps}
    {e : Expr Name} (h : serialize p c label deps = (some (e, deps'), c')) :
    ∃ ds, c'.lookup label = some (e, ds) ∧ deps' = deps ∪ ds := by
  simp only [serialize] at h
  split at h
  · cases h
  split at h
  · cases h
  split at h
  next found =>
    cases h
    obtain ⟨ds, hlook, rfl⟩ := getCachedExpr_some.mp found
    exact ⟨ds, hlook, rfl⟩
  · cases h

/-- On a well-typed label a successful call adds exactly the input bytes that
occur in it, and it has translated the whole sub-DAG, the returned expression
included, with the right widths and values if and only if every constant operand
of a Concat has fewer than 256 bits. -/
theorem serialize_sound_iff (p : Parser) (c c' : Caches) (label : Nat) (deps deps' : Deps)
    (e : Expr Name) (reached : Reached p c) (wt : WellTyped p.info label)
    (h : serialize p c label deps = (some (e, deps'), c')) :
    (∀ o, o ∈ deps' ↔ o ∈ deps ∨ Occurs p.info label o) ∧
      (∃ ds, c'.lookup label = some (e, ds)) ∧
      ((∀ k, InDag p.info label k → Translated p c' k) ↔
        ∀ k, InDag p.info label k → ConstantFits p.info (p.info k)) := by
  have con : Consistent p c' := by
    have kept := serialize_consistent label deps reached.consistent
    rwa [h] at kept
  obtain ⟨ds, found, rfl⟩ := serialize_some h
  refine ⟨?_, ⟨ds, found⟩, dag_translated_iff con wt found⟩
  intro o
  rw [Finset.mem_union, deps_iff_occurs con wt found o]

/-- The comparison of a 16-bit word plus five with a constant. -/
theorem serialize_sound_iff_word :
    let p : Parser := ⟨(TableGrowth.tableOf [⟨0, 0, 0, 0, .input, 8, 0⟩,
      ⟨0, 0, 1, 0, .input, 8, 0⟩, ⟨1, 2, 0, 0, .load, 16, 0⟩, ⟨3, 0, 0, 5, .add, 16, 0⟩,
      ⟨4, 0, 7, 100, .icmp .bvult, 16, 0⟩] 1000).info, 1000, .keep⟩
    ∃ e deps c, serialize p .restart 5 ∅ = (some (e, deps), c) ∧
      (∀ o, o ∈ deps ↔ o ∈ (∅ : Deps) ∨ Occurs p.info 5 o) ∧ Represents p.info e 5 := by
  intro p
  have wt : WellTyped p.info 5 := dag_of_range (n := 5) (by decide) (by decide)
  have success : (serialize p .restart 5 ∅).1.isSome = true := by decide
  obtain ⟨⟨e, deps⟩, some⟩ := Option.isSome_iff_exists.mp success
  have h : serialize p .restart 5 ∅ = (Option.some (e, deps), (serialize p .restart 5 ∅).2) := by
    rw [← some]
  obtain ⟨exact', ⟨_, found⟩, iff⟩ := serialize_sound_iff p .restart _ 5 ∅ deps e .restart wt h
  have fits : ∀ k, InDag p.info 5 k → ConstantFits p.info (p.info k) := by
    intro k reach concat
    exact absurd concat (dag_of_range (n := 5) (Q := fun k => (p.info k).op ≠ .concat)
      (by decide) (by decide) k reach).2.2
  obtain ⟨_, _, found', rep⟩ := iff.mpr fits 5 .self
  rw [found] at found'
  cases found'
  exact ⟨e, deps, _, h, exact', rep⟩

/-- Thirty-three concrete bytes before a symbolic one: the constant of 264 bits is
built with 8, so the expression has 16 bits and the byte is at bit 8, not 264. -/
theorem serialize_wide_constant :
    let p : Parser := ⟨(TableGrowth.tableOf [⟨0, 0, 0, 0, .input, 8, 0⟩,
      ⟨0, 1, 0, 0, .concat, 272, 0⟩] 1000).info, 1000, .keep⟩
    WellTyped p.info 2 ∧ (serialize p .restart 2 ∅).1.map
        (fun r => (r.1.width, r.1.value fun _ => 1)) = some (16, 2 ^ 8) ∧
      width (p.info 2) = 272 ∧ den p.info ⟨fun _ _ => 1, fun _ => 0⟩ 2 = 2 ^ 264 := by
  intro p
  exact ⟨dag_of_range (n := 2) (by decide +kernel) (by decide), by decide, rfl, by decide +kernel⟩

end Z3Caches
