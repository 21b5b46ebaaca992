import SymSan.Z3Caches
import SymSan.Z3Nested
import SymSan.Z3Sorts

/-!
# Failing calls of the Z3 parser

A call that meets a label whose translation throws leaves a set of dependencies without
an expression, and an exception that is not one of Z3 leaves `parse_cond`. Neither
happens if every label up to that of the branch has a sort and the bytes of a boolean
label lie inside the inputs. A call that then fails has only translated labels in
advance; if none of them is the size of the file, the later calls do not notice.
-/

namespace Z3Errors

open LabelTable BitTerms Z3Parser Z3Soundness Z3Caches WorklistClosure Z3Branches Z3Nested
open Z3Sorts Relation
open List (getD_append length_append length_singleton)
open Build (bind_eq_some lift_eq_some)

/-! ## Recorded contents -/

section Contents

variable {p : Parser} {look : Lookup} {content : Option (Nat → BitVec 8)} {l : Nat}
  {m : Option (Expr Name)}

/-- A translation that succeeds without a content does not look at it. -/
lemma translate_content {d d' : Deps} (h : translate p look none l d = (some m, d')) :
    translate p look content l d = (some m, d') := by
  simp only [Z3Parser.translate, bind_eq_some] at h ⊢
  obtain ⟨r, d1, found, h⟩ := h
  refine ⟨r, d1, found, ?_⟩
  cases op : r.op with
  | fmemcmp =>
    simp only [op] at h ⊢
    by_cases symbolic : 1 ≤ r.l1
    · rw [if_pos symbolic] at h ⊢
      exact h
    · rw [if_neg symbolic] at h
      simp only [bind_eq_some, lift_eq_some] at h
      obtain ⟨_, _, ⟨missing, _⟩, _⟩ := h
      cases missing
  | _ =>
    simp only [op] at h ⊢
    exact h

lemma getLabelInfo_lt {r : LabelInfo} {k : Nat} (h : p.getLabelInfo k = some r) : k < p.size := by
  by_contra large
  rw [Parser.getLabelInfo, if_pos (by omega)] at h
  cases h

lemma operands_some {d : Deps} (op : isCommon (p.info l).op = true)
    (h : translate p look content l ∅ = (some m, d)) :
    operands p look (p.info l) ∅ = (some (), d) := by
  obtain ⟨size1, op1, d1, size2, op2, const1, first, const2, second, -⟩ := translate_common op h
  simp only [operands, bind_eq_some, lift_eq_some, Build.pure_eq_some]
  exact ⟨size1, _, ⟨const1, rfl⟩, op1, d1, first, size2, _, ⟨const2, rfl⟩, op2, d, second,
    trivial, rfl⟩

lemma treeSizeOf_some {d : Deps} (tsizes : List Nat)
    (h : translate p look content l ∅ = (some m, d)) :
    ∃ n, treeSizeOf p look content tsizes l = some n := by
  have made := h
  replace h := labelInfo_bind h
  simp only [treeSizeOf]
  cases op : (p.info l).op with
  | input | alloca | free => exact ⟨_, rfl⟩
  | load =>
    simp only [op, bind_eq_some, lift_eq_some] at h
    obtain ⟨_, _, ⟨found, _⟩, _⟩ := h
    have inside := getLabelInfo_lt found
    exact ⟨1, if_neg (by omega)⟩
  | zext | trunc | extract | intToPtr =>
    simp only [op, bind_eq_some, getCachedExpr_some] at h
    obtain ⟨base, _, ⟨ds, found, _⟩, _⟩ := h
    simp only [found]
    exact ⟨_, rfl⟩
  | sext =>
    simp only [op, bind_eq_some, lift_eq_some, getCachedExpr_some] at h
    obtain ⟨base, _, ⟨ds, found, _⟩, made, _⟩ := h
    obtain ⟨e, extended, -⟩ := Option.map_eq_some_iff.mp made
    obtain ⟨w, sort, -⟩ := Expr.sext_some extended
    simp [found, sort]
  | not | neg =>
    simp only [op] at h
    split at h
    · exact absurd h Build.throw_ne_some
    next valid =>
      simp only [bind_eq_some, getCachedExpr_some] at h
      obtain ⟨_, _, ⟨ds, found, _⟩, _⟩ := h
      rw [if_neg valid, found]
      exact ⟨_, rfl⟩
  | fmemcmp =>
    simp only [op] at h
    dsimp only
    have second : ∀ (a : Expr Name) (d1 : Deps), ((if (p.info l).l2 < 1 then Build.throw
        else getCachedExpr look (p.info l).l2 >>= fun b => Build.lift (memcmpOf a b)) :
          Build (Option (Expr Name))) d1 = (some m, d) →
        ¬(p.info l).l2 < 1 ∧ ∃ entry, look (p.info l).l2 = some entry := by
      intro a d1 made
      split at made
      · exact absurd made Build.throw_ne_some
      next valid =>
        simp only [bind_eq_some, getCachedExpr_some] at made
        obtain ⟨b, _, ⟨_, found, _⟩, _⟩ := made
        exact ⟨valid, _, found⟩
    by_cases symbolic : 1 ≤ (p.info l).l1
    · rw [if_pos symbolic] at h
      simp only [bind_eq_some, getCachedExpr_some] at h
      obtain ⟨a, d2, ⟨_, found, _⟩, rest⟩ := h
      obtain ⟨valid, _, found'⟩ := second a d2 rest
      rw [if_pos (.inl ⟨symbolic, by rw [found]; rfl⟩), if_neg valid, found']
      exact ⟨_, rfl⟩
    · rw [if_neg symbolic] at h
      simp only [bind_eq_some, lift_eq_some] at h
      obtain ⟨a, d2, ⟨read, _⟩, rest⟩ := h
      obtain ⟨valid, _, found'⟩ := second a d2 rest
      rw [if_pos (.inr ⟨by omega, by rw [read]; rfl⟩), if_neg valid, found']
      exact ⟨_, rfl⟩
  | fsize =>
    simp only [op, bind_eq_some, lift_eq_some] at h
    obtain ⟨_, _, ⟨made, _⟩, _⟩ := h
    simp only [bvConst] at made
    split at made
    · cases made
    next wide =>
      exact ⟨1, if_neg wide⟩
  | fatoi =>
    simp only [op, bind_eq_some, lift_eq_some] at h
    obtain ⟨_, _, ⟨found, _⟩, _, _, ⟨found', _⟩, _⟩ := h
    have inside := getLabelInfo_lt found
    have inside' := getLabelInfo_lt found'
    rw [getLabelInfo_some found] at inside'
    exact ⟨1, if_neg (by omega)⟩
  | ptrToInt | bitCast | arg | other =>
    simp only [op, bind_eq_some, lift_eq_some] at h
    obtain ⟨_, _, _, _, _, _, _, _, _, _, _, _, made, _⟩ := h
    rw [Z3Parser.common, op] at made
    cases made
  | _ =>
    rw [operands_some (by rw [op]; rfl) made]
    exact ⟨_, rfl⟩

lemma treeSizeOf_content {tsizes : List Nat} {n : Nat}
    (h : treeSizeOf p look none tsizes l = some n) :
    treeSizeOf p look content tsizes l = some n := by
  simp only [treeSizeOf] at h ⊢
  cases op : (p.info l).op with
  | fmemcmp =>
    simp only [op] at h ⊢
    by_cases symbolic : 1 ≤ (p.info l).l1
    · have concrete : ¬(p.info l).l1 < 1 := by omega
      simp only [concrete, false_and] at h ⊢
      exact h
    · simp [symbolic, Z3Parser.readConcrete] at h
  | _ =>
    simp only [op] at h ⊢
    exact h

end Contents

/-! ## Aligned caches -/

/-- The three caches describe the same labels, index for index. -/
structure Aligned (p : Parser) (s : State) : Prop where
  deps : s.caches.deps.length = s.caches.exprs.length
  tsizes : s.tsizes.length = s.caches.exprs.length
  null : 0 < s.caches.exprs.length ∧ s.caches.exprs.getD 0 none = none ∧ s.caches.deps.getD 0 ∅ = ∅
  entries : ∀ k, 1 ≤ k → k < s.caches.exprs.length →
    translate p (seenAt s.caches k) (s.caches.memcmp k) k ∅ =
      (some (s.caches.exprs.getD k none), s.caches.deps.getD k ∅) ∧
    treeSizeOf p (seenAt s.caches k) (s.caches.memcmp k) (s.tsizes.take k) k =
      some (s.tsizes.getD k 0)

/-- Which labels have a content. -/
def known (s : State) (l : Nat) : Bool := (s.caches.memcmp l).isSome

section Aligned

variable {p : Parser} {s s' : State} {l : Nat}

lemma restart_aligned (p : Parser) : Aligned p restart := by
  refine ⟨rfl, rfl, ⟨Nat.one_pos, rfl, rfl⟩, fun k pos lt => ?_⟩
  simp only [restart, Caches.restart, length_singleton] at lt
  omega

lemma memcmp_cases (c : Caches) (l k : Nat) (content : Nat → BitVec 8) :
    (c.recordMemcmp l content).memcmp k = c.memcmp k ∨ c.memcmp k = none := by
  simp only [Caches.recordMemcmp]
  split
  next here =>
    exact .inr here.2
  · exact .inl rfl

variable (aligned : Aligned p s)

include aligned

lemma recordMemcmp_aligned (l : Nat) (content : Nat → BitVec 8) :
    Aligned p (recordMemcmp s l content) := by
  refine ⟨aligned.deps, aligned.tsizes, aligned.null, fun k pos lt => ?_⟩
  obtain ⟨made, size⟩ := aligned.entries k pos lt
  rcases memcmp_cases s.caches l k content with same | missing
  · change translate p (seenAt s.caches k) ((s.caches.recordMemcmp l content).memcmp k) k ∅ = _ ∧
      treeSizeOf p (seenAt s.caches k) ((s.caches.recordMemcmp l content).memcmp k) _ k = _
    rw [same]
    exact ⟨made, size⟩
  · rw [missing] at made size
    exact ⟨translate_content made, treeSizeOf_content size⟩

lemma scanLabel_some {e : Option (Expr Name)} {d : Deps}
    (made : translate p s.caches.lookup (s.caches.memcmp s.caches.exprs.length)
      s.caches.exprs.length ∅ = (some e, d)) :
    ∃ s', scanLabel p s = (none, s') ∧ Aligned p s' ∧
      s'.caches.exprs.length = s.caches.exprs.length + 1 ∧
      s'.caches.memcmp = s.caches.memcmp := by
  obtain ⟨n, size⟩ := treeSizeOf_some s.tsizes made
  have long := aligned.deps
  have long' := aligned.tsizes
  have pos := aligned.null.1
  refine ⟨{ s with
      caches := { s.caches with exprs := s.caches.exprs ++ [e], deps := s.caches.deps ++ [d] }
      tsizes := s.tsizes ++ [n] }, ?_, ⟨?_, ?_, ⟨?_, ?_, ?_⟩, fun k pos lt => ?_⟩, ?_, rfl⟩
  · simp [scanLabel, scanStep, made, size]
  · simp [long]
  · simp [long']
  · simp only [length_append]
    omega
  · rw [getD_append _ _ _ _ pos]
    exact aligned.null.2.1
  · rw [getD_append _ _ _ _ (by omega)]
    exact aligned.null.2.2
  · have same : ∀ j ≤ s.caches.exprs.length, seenAt
        { s.caches with exprs := s.caches.exprs ++ [e], deps := s.caches.deps ++ [d] } j =
          seenAt s.caches j := by
      intro j le
      exact seenAt_congr (fun i lt => getD_append _ _ _ _ (by omega))
        fun i lt => getD_append _ _ _ _ (by omega)
    simp only [length_append, length_singleton] at lt
    rw [same k (by omega), List.take_append_of_le_length (by omega)]
    by_cases new : k = s.caches.exprs.length
    · have lastExpr : (s.caches.exprs ++ [e]).getD s.caches.exprs.length none = e := by simp
      have lastDeps : (s.caches.deps ++ [d]).getD s.caches.exprs.length ∅ = d := by
        rw [← long]
        simp
      have lastSize : (s.tsizes ++ [n]).getD s.caches.exprs.length 0 = n := by
        rw [← long']
        simp
      rw [new, seenAt_length, made, lastExpr, lastDeps, lastSize, ← long', List.take_length, long']
      exact ⟨rfl, size⟩
    · rw [getD_append _ _ _ _ (by omega), getD_append _ _ _ _ (by omega),
        getD_append _ _ _ _ (by omega)]
      exact aligned.entries k pos (by omega)
  · simp

/-- One that throws leaves a set of dependencies behind. -/
lemma scanLabel_none {d : Deps}
    (made : translate p s.caches.lookup (s.caches.memcmp s.caches.exprs.length)
      s.caches.exprs.length ∅ = (none, d)) :
    ∃ f s', scanLabel p s = (some f, s') ∧ ¬Aligned p s' := by
  refine ⟨_, _, by simp only [scanLabel, scanStep, made]; rfl, fun after => ?_⟩
  have longer := after.deps
  have long := aligned.deps
  simp only [length_append, length_singleton] at longer
  omega

lemma Aligned.sorts {k : Nat} (lt : k < s.caches.exprs.length) :
    labelSort p (known s) k = (some ((s.caches.exprs.getD k none).map (·.sort)),
      s.caches.deps.getD k ∅) := by
  induction k using Nat.strongRecOn with
  | ind k ih =>
    by_cases zero : k = 0
    · subst zero
      rw [aligned.null.2.1, aligned.null.2.2]
      rfl
    have look : (fun j => if j < k then entrySort (labelSort p (known s) j) else none) =
        sortsOf (seenAt s.caches k) := by
      funext j
      simp only [sortsOf, seenAt]
      split
      next below =>
        rw [ih j below (by omega), Caches.lookup]
        cases s.caches.exprs.getD j none <;> rfl
      · rfl
    obtain ⟨made, -⟩ := aligned.entries k (by omega) lt
    have sorted := translate_maps p (seenAt s.caches k) (s.caches.memcmp k) k ∅
    rw [made] at sorted
    rw [labelSort_eq p (known s) zero, look]
    exact sorted

lemma Aligned.next :
    (translate p s.caches.lookup (s.caches.memcmp s.caches.exprs.length)
        s.caches.exprs.length ∅).1.isSome =
      (labelSort p (known s) s.caches.exprs.length).1.isSome := by
  have pos := aligned.null.1
  have look : (fun j => if j < s.caches.exprs.length then entrySort (labelSort p (known s) j)
      else none) = sortsOf s.caches.lookup := by
    funext j
    split
    next below =>
      rw [aligned.sorts below, sortsOf, Caches.lookup]
      cases s.caches.exprs.getD j none <;> rfl
    · rw [sortsOf, lookup_of_le (by omega)]
      rfl
  have sorted := translate_maps p s.caches.lookup
  rw [labelSort_eq p (known s) (by omega), look]
  change _ = (sortLabel p (sortsOf s.caches.lookup)
    (s.caches.memcmp s.caches.exprs.length).isSome s.caches.exprs.length ∅).1.isSome
  rw [sorted, Option.isSome_map]

/-- A scan succeeds if and only if the new labels have sorts, and it leaves the caches
aligned only then. -/
lemma Aligned.scan (n : Nat) :
    (∃ s', scan p n s = (none, s') ∧ Aligned p s' ∧
      s'.caches.exprs.length = s.caches.exprs.length + n ∧ s'.caches.memcmp = s.caches.memcmp ∧
      ∀ k, s.caches.exprs.length ≤ k → k < s.caches.exprs.length + n →
        (labelSort p (known s) k).1.isSome) ∨
    ∃ f s' k, scan p n s = (some f, s') ∧ ¬Aligned p s' ∧ s.caches.exprs.length ≤ k ∧
      k < s.caches.exprs.length + n ∧ (labelSort p (known s) k).1 = none := by
  induction n generalizing s with
  | zero => exact .inl ⟨s, rfl, aligned, rfl, rfl, fun k low high => by omega⟩
  | succ n ih =>
    have sorted := aligned.next
    generalize made : translate p s.caches.lookup (s.caches.memcmp s.caches.exprs.length)
      s.caches.exprs.length ∅ = out at sorted
    obtain ⟨e, d⟩ := out
    cases e with
    | none =>
      obtain ⟨f, s1, failed, broken⟩ := scanLabel_none aligned made
      refine .inr ⟨f, s1, s.caches.exprs.length, ?_, broken, Nat.le_refl _, by omega, ?_⟩
      · simp only [Z3Branches.scan, failed]
      · exact Option.not_isSome_iff_eq_none.mp (by rw [← sorted]; exact Bool.false_ne_true)
    | some e =>
      obtain ⟨s1, scanned, next, _, contents⟩ := scanLabel_some aligned made
      have same : known s1 = known s := by
        funext k
        rw [known, contents, ← known]
      simp only [Z3Branches.scan, scanned]
      rcases ih next with ⟨s2, done, after, long, contents', all⟩ |
        ⟨f, s2, k, failed, broken, low, high, none⟩
      · refine .inl ⟨s2, done, after, by omega, contents'.trans contents, fun k low high => ?_⟩
        rw [same] at all
        by_cases here : k = s.caches.exprs.length
        · rw [here, ← sorted]
          rfl
        · exact all k (by omega) (by omega)
      · rw [same] at none
        exact .inr ⟨f, s2, k, failed, broken, by omega, by omega, none⟩

lemma Aligned.frame (caches : s'.caches = s.caches) (tsizes : s'.tsizes = s.tsizes) :
    Aligned p s' := by
  obtain ⟨deps, sizes, null, entries⟩ := aligned
  constructor
  · rw [caches]
    exact deps
  · rw [caches, tsizes]
    exact sizes
  · rw [caches]
    exact null
  · rw [caches, tsizes]
    exact entries

end Aligned

/-! ## Calls that are accepted -/

/-- Every label up to that of the branch has a sort, and the bytes of a boolean one lie
inside the inputs. A label that is not valid is refused at once. -/
def Accepted (σ : Setting) (s : State) (label : Nat) : Prop :=
  (label < 1 ∨ label = kInitializingLabel ∨ σ.parser.size ≤ label) ∨
    (∀ k, 1 ≤ k → k ≤ label → (labelSort σ.parser (known s) k).1.isSome = true) ∧
    ((labelSort σ.parser (known s) label).1 = some (some .bool) →
      ∀ off, off ∈ (labelSort σ.parser (known s) label).2 → off ∈ offsets σ.inputs)

/-- The recorded bytes lie inside the inputs. -/
def Contained (σ : Setting) (s : State) : Prop :=
  ∀ off y, y ∈ inputsAt s off → y ∈ offsets σ.inputs

section Accepted

variable {σ : Setting} {s s' : State} {cond : Expr Name} {deps : Deps} {label : Nat}

lemma addTask_not_bool (sort : cond.sort ≠ .bool) (result save : Bool) :
    addTask σ s cond deps result save = (.error, s) := by
  have none : cond.distinct (.truth result) = none := by
    rw [← Option.map_eq_none_iff, TermSorts.sort_distinct]
    exact if_neg (Ne.symm sort)
  simp only [addTask, none]

lemma collectMoreDeps_contained (contained : Contained σ s) (deps : Deps) :
    ((∀ off ∈ deps, off ∈ offsets σ.inputs) ∧
      ∃ final, collectMoreDeps σ s deps = .closed final ∧ ∀ x ∈ final, x ∈ offsets σ.inputs) ∨
    ((∃ off ∈ deps, off ∉ offsets σ.inputs) ∧ collectMoreDeps σ s deps = .refused) := by
  rcases collectMoreDeps_exact σ s deps with ⟨final, closed, members, inside⟩ |
    ⟨refused, x, a, inDeps, path, outside⟩
  · exact .inl ⟨fun off inDeps => inside off ((members off).mpr ⟨off, inDeps, .refl⟩),
      final, closed, inside⟩
  · refine .inr ⟨⟨a, inDeps, fun inside => ?_⟩, refused⟩
    -- the bytes of the records lie inside the inputs
    cases path with
    | refl => exact outside inside
    | tail _ edge => exact outside (contained _ x edge.2)

lemma Contained.save (contained : Contained σ s) {final : Deps}
    (inside : ∀ x ∈ final, x ∈ offsets σ.inputs) (e : Expr Name) :
    Contained σ (saveConstraint s e final) := by
  intro off y inRecord
  simp only [inputsAt, saveConstraint] at inRecord
  split at inRecord
  · rcases Finset.mem_union.mp inRecord with old | new
    · refine contained off y ?_
      cases record : s.branchDeps off with
      | none =>
        rw [record] at old
        cases old
      | some dep =>
        rw [record] at old
        rw [inputsAt, record]
        exact old
    · exact inside y new
  · exact contained off y inRecord

lemma addTask_bool (contained : Contained σ s) (sort : cond.sort = .bool) (result save : Bool) :
    ((∀ off ∈ deps, off ∈ offsets σ.inputs) ∧
      ∃ task s', addTask σ s cond deps result save = (.task task, s') ∧
        s'.caches = s.caches ∧ s'.tsizes = s.tsizes ∧ Contained σ s') ∨
    ((∃ off ∈ deps, off ∉ offsets σ.inputs) ∧
      addTask σ s cond deps result save = (.escapes, s)) := by
  obtain ⟨_, distinct, -⟩ := Option.map_eq_some_iff.mp
    (show (cond.distinct (.truth result)).map (·.sort) = some .bool by
      rw [TermSorts.sort_distinct, sort]
      rfl)
  obtain ⟨_, equal, -⟩ := Option.map_eq_some_iff.mp
    (show (cond.equal (.truth result)).map (·.sort) = some .bool by
      rw [TermSorts.sort_equal, sort]
      rfl)
  rcases collectMoreDeps_contained contained deps with ⟨own, final, closed, inside⟩ |
    ⟨outside, refused⟩
  · simp only [addTask, distinct, equal, closed]
    rcases save with _ | _
    · exact .inl ⟨own, _, s, rfl, rfl, rfl, contained⟩
    · exact .inl ⟨own, _, _, rfl, rfl, rfl, contained.save inside _⟩
  · simp only [addTask, distinct, equal, refused]
    exact .inr ⟨outside, trivial⟩

/-- A scan up to a label: it succeeds if and only if all labels up to there have sorts. -/
lemma scan_upTo (aligned : Aligned σ.parser s) (contained : Contained σ s) (label : Nat) :
    ((∀ k, 1 ≤ k → k ≤ label → (labelSort σ.parser (known s) k).1.isSome = true) ∧
      ∃ s', scan σ.parser (label + 1 - s.caches.exprs.length) s = (none, s') ∧
        Aligned σ.parser s' ∧ Contained σ s' ∧ known s' = known s ∧
        labelSort σ.parser (known s) label =
          (some ((s'.caches.exprs.getD label none).map (·.sort)), s'.caches.deps.getD label ∅)) ∨
    ((∃ k, 1 ≤ k ∧ k ≤ label ∧ (labelSort σ.parser (known s) k).1 = none) ∧
      ∃ f s', scan σ.parser (label + 1 - s.caches.exprs.length) s = (some f, s') ∧
        ¬Aligned σ.parser s') := by
  have pos := aligned.null.1
  obtain ⟨-, records, -⟩ := scan_caches σ.parser (label + 1 - s.caches.exprs.length) s
  rcases aligned.scan (label + 1 - s.caches.exprs.length) with
    ⟨s1, scanned, after, long, contents, all⟩ | ⟨f, s1, k, scanned, broken, low, high, none⟩
  · have same : known s1 = known s := by
      funext k
      rw [known, contents, ← known]
    refine .inl ⟨fun k _ le => ?_, s1, scanned, after, ?_, same, ?_⟩
    · by_cases old : k < s.caches.exprs.length
      · rw [aligned.sorts old]
        rfl
      · exact all k (by omega) (by omega)
    · rw [scanned] at records
      intro off y inRecord
      rw [inputsAt, records] at inRecord
      exact contained off y inRecord
    · rw [← same]
      exact after.sorts (by omega)
  · exact .inr ⟨⟨k, by omega, by omega, none⟩, f, s1, scanned, broken⟩

lemma parseCond_valid (s : State)
    (valid : ¬(label < 1 ∨ label = kInitializingLabel ∨ σ.parser.size ≤ label))
    (result addNested : Bool) : parseCond σ s label result addNested =
      match scan σ.parser (label + 1 - s.caches.exprs.length) s with
      | (some .z3, s) => (.error, s)
      | (some .outOfRange, s) => (.escapes, s)
      | (some .endless, s) => (.endless, s)
      | (none, s') =>
        match getCachedExpr s'.caches.lookup label ∅ with
        | (none, _) => (.error, s')
        | (some cond, inputs) =>
          addTask σ s' cond inputs result (addNested &&
            !hasFsize σ.parser s.caches.exprs.length s'.caches.exprs.length) :=
  if_neg valid

lemma parseCond_spec (aligned : Aligned σ.parser s) (contained : Contained σ s) (label : Nat)
    (result addNested : Bool) :
    (Accepted σ s label ∧ Aligned σ.parser (parseCond σ s label result addNested).2 ∧
      Contained σ (parseCond σ s label result addNested).2 ∧
      ((∃ task, (parseCond σ s label result addNested).1 = .task task) ∨
        (parseCond σ s label result addNested).1 = .error ∧
        ∃ n, s.caches.exprs.length + n ≤ max s.caches.exprs.length (label + 1) ∧
          scan σ.parser n s = (none, (parseCond σ s label result addNested).2))) ∨
    (¬Accepted σ s label ∧
      ((parseCond σ s label result addNested).1 = .error ∧
          ¬Aligned σ.parser (parseCond σ s label result addNested).2 ∨
        (parseCond σ s label result addNested).1 = .escapes ∨
        (parseCond σ s label result addNested).1 = .endless)) := by
  have pos := aligned.null.1
  by_cases invalid : label < 1 ∨ label = kInitializingLabel ∨ σ.parser.size ≤ label
  · have call : parseCond σ s label result addNested = (.error, s) := if_pos invalid
    rw [call]
    exact .inl ⟨.inl invalid, aligned, contained, .inr ⟨rfl, 0, by omega, rfl⟩⟩
  have call := parseCond_valid s invalid result addNested
  rcases scan_upTo aligned contained label with
    ⟨sorted, s1, scanned, after, inside, -, sort⟩ | ⟨⟨k, low, high, none⟩, f, s1, scanned, broken⟩
  · have reach : ∃ n, s.caches.exprs.length + n ≤ max s.caches.exprs.length (label + 1) ∧
        scan σ.parser n s = (Option.none, s1) :=
      ⟨label + 1 - s.caches.exprs.length, by omega, scanned⟩
    rw [scanned] at call
    simp only [getCachedExpr, Caches.lookup] at call
    cases cached : s1.caches.exprs.getD label Option.none with
    | none =>
      rw [cached] at call sort
      rw [show parseCond σ s label result addNested = (.error, s1) from call]
      refine .inl ⟨.inr ⟨sorted, ?_⟩, after, inside, .inr ⟨rfl, reach⟩⟩
      simp [sort]
    | some e =>
      rw [cached] at call sort
      have call' : ∃ save, parseCond σ s label result addNested =
          addTask σ s1 e (∅ ∪ s1.caches.deps.getD label ∅) result save := ⟨_, call⟩
      obtain ⟨save, call'⟩ := call'
      rw [Finset.empty_union] at call'
      by_cases bool : e.sort = .bool
      · rcases addTask_bool inside bool result save with
          ⟨own, task, s2, added, caches, tsizes, inside'⟩ | ⟨⟨off, inDeps, outside⟩, escaped⟩
        · rw [call', added]
          refine .inl ⟨.inr ⟨sorted, fun _ => ?_⟩, after.frame caches tsizes, inside',
            .inl ⟨task, rfl⟩⟩
          rw [sort]
          exact own
        · rw [call', escaped]
          refine .inr ⟨?_, .inr (.inl rfl)⟩
          rintro (invalid' | ⟨-, own⟩)
          · exact invalid invalid'
          · rw [sort] at own
            exact outside (own (congrArg (fun t => some (some t)) bool) off inDeps)
      · rw [call', addTask_not_bool bool result save]
        refine .inl ⟨.inr ⟨sorted, ?_⟩, after, inside, .inr ⟨rfl, reach⟩⟩
        rw [sort]
        intro isBool
        exact absurd (Option.some.inj (Option.some.inj isBool)) bool
  · have rejected : ¬Accepted σ s label := by
      rintro (invalid' | ⟨sorted, -⟩)
      · exact invalid invalid'
      · have made := sorted k low high
        rw [none] at made
        cases made
    rw [scanned] at call
    refine .inr ⟨rejected, ?_⟩
    rw [call]
    cases f with
    | z3 => exact .inl ⟨rfl, broken⟩
    | outOfRange => exact .inr (.inl rfl)
    | endless => exact .inr (.inr rfl)

end Accepted

/-! ## Labels translated in advance -/

section Scans

variable {p : Parser} {s s' : State} {first k last : Nat}

lemma scan_add (p : Parser) (j k : Nat) (s : State) : scan p (j + k) s = match scan p j s with
    | (none, s1) => scan p k s1
    | (some f, s1) => (some f, s1) := by
  induction j generalizing s with
  | zero => rw [Nat.zero_add, scan]
  | succ j ih =>
    rw [Nat.add_right_comm, scan, scan]
    cases scanLabel p s with
    | mk failure s1 =>
      cases failure with
      | none => exact ih s1
      | some f => rfl

lemma scanLabel_frame (p : Parser) (s : State) (b : Nat × Nat → Option BranchDependency) :
    scanLabel p { s with branchDeps := b } =
      ((scanLabel p s).1, { (scanLabel p s).2 with branchDeps := b }) := by
  simp only [scanLabel]
  split
  · rfl
  · rfl

lemma scan_frame (p : Parser) (k : Nat) (s : State) (b : Nat × Nat → Option BranchDependency) :
    scan p k { s with branchDeps := b } =
      ((scan p k s).1, { (scan p k s).2 with branchDeps := b }) := by
  induction k generalizing s with
  | zero => rfl
  | succ k ih =>
    rw [scan, scan, scanLabel_frame]
    cases scanLabel p s with
    | mk failure s1 =>
      cases failure with
      | none => exact ih s1
      | some f => rfl

lemma scanLabel_grows (h : scanLabel p s = (none, s')) :
    ∃ e d, translate p s.caches.lookup (s.caches.memcmp s.caches.exprs.length)
        s.caches.exprs.length ∅ = (some e, d) ∧
      s'.caches.exprs = s.caches.exprs ++ [e] ∧ s'.caches.deps = s.caches.deps ++ [d] := by
  simp only [scanLabel, scanStep] at h
  generalize translate p s.caches.lookup (s.caches.memcmp s.caches.exprs.length)
    s.caches.exprs.length ∅ = out at h
  obtain ⟨made, d⟩ := out
  cases made with
  | none => cases h
  | some e =>
    cases h
    exact ⟨e, d, rfl, rfl, rfl⟩

lemma scan_succ (h : scan p (k + 1) s = (none, s')) :
    ∃ s1, scanLabel p s = (none, s1) ∧ scan p k s1 = (none, s') := by
  rw [scan] at h
  cases step : scanLabel p s with
  | mk failure s1 =>
    rw [step] at h
    cases failure with
    | some f => cases h
    | none => exact ⟨s1, rfl, h⟩

lemma scan_grows (h : scan p k s = (none, s')) :
    ∃ es ds, s'.caches.exprs = s.caches.exprs ++ es ∧ es.length = k ∧
      s'.caches.deps = s.caches.deps ++ ds := by
  induction k generalizing s with
  | zero =>
    cases h
    exact ⟨[], [], by simp, rfl, by simp⟩
  | succ k ih =>
    obtain ⟨s1, step, rest⟩ := scan_succ h
    obtain ⟨e, d, -, exprs, deps⟩ := scanLabel_grows step
    obtain ⟨es, ds, exprs', count, deps'⟩ := ih rest
    refine ⟨e :: es, d :: ds, ?_, by rw [List.length_cons, count], ?_⟩
    · rw [exprs', exprs, List.append_assoc, List.singleton_append]
    · rw [deps', deps, List.append_assoc, List.singleton_append]

lemma scan_length (h : scan p k s = (none, s')) :
    s'.caches.exprs.length = s.caches.exprs.length + k := by
  obtain ⟨_, -, exprs, count, -⟩ := scan_grows h
  rw [exprs, length_append, count]

lemma scanLabel_wide (p : Parser) (wide : s.caches.exprs.length ≤ s.caches.deps.length) :
    (scanLabel p s).2.caches.exprs.length ≤ (scanLabel p s).2.caches.deps.length := by
  rw [(scanLabel_caches p s).1]
  simp only [scanStep]
  split
  · simp only [length_append, length_singleton]
    omega
  · simp only [length_append]
    omega

lemma scan_wide (p : Parser) (k : Nat) (wide : s.caches.exprs.length ≤ s.caches.deps.length) :
    (scan p k s).2.caches.exprs.length ≤ (scan p k s).2.caches.deps.length := by
  induction k generalizing s with
  | zero => exact wide
  | succ k ih =>
    have next := scanLabel_wide p wide
    rw [scan]
    cases step : scanLabel p s with
    | mk failure s1 =>
      rw [step] at next
      cases failure with
      | none => exact ih next
      | some f => exact next

lemma scanLabel_memcmp (l : Nat) (content : Nat → BitVec 8) (h : scanLabel p s = (none, s')) :
    scanLabel p (recordMemcmp s l content) = (none, recordMemcmp s' l content) := by
  obtain ⟨e, d, made, -⟩ := scanLabel_grows h
  obtain ⟨n, size⟩ := treeSizeOf_some s.tsizes made
  have both : translate p s.caches.lookup
        ((s.caches.recordMemcmp l content).memcmp s.caches.exprs.length)
        s.caches.exprs.length ∅ = (some e, d) ∧
      treeSizeOf p s.caches.lookup
        ((s.caches.recordMemcmp l content).memcmp s.caches.exprs.length) s.tsizes
        s.caches.exprs.length = some n := by
    rcases memcmp_cases s.caches l s.caches.exprs.length content with same | missing
    · rw [same]
      exact ⟨made, size⟩
    · rw [missing] at made size
      exact ⟨translate_content made, treeSizeOf_content size⟩
  simp only [scanLabel, scanStep, made, size] at h
  cases h
  obtain ⟨made', size'⟩ := both
  simp only [scanLabel, scanStep, recordMemcmp]
  rw [show (s.caches.recordMemcmp l content).lookup = s.caches.lookup from rfl,
    show (s.caches.recordMemcmp l content).exprs = s.caches.exprs from rfl, made', size']
  rfl

/-- Contents that come later do not change labels that have been translated. -/
lemma scan_memcmp (l : Nat) (content : Nat → BitVec 8) (h : scan p k s = (none, s')) :
    scan p k (recordMemcmp s l content) = (none, recordMemcmp s' l content) := by
  induction k generalizing s with
  | zero =>
    cases h
    rfl
  | succ k ih =>
    obtain ⟨s1, step, rest⟩ := scan_succ h
    rw [scan, scanLabel_memcmp l content step]
    exact ih rest

lemma hasFsize_eq_false :
    hasFsize p first last = false ↔ ∀ l, first ≤ l → l < last → (p.info l).op ≠ .fsize := by
  simp only [hasFsize, List.any_eq_false, List.mem_range, decide_eq_true_eq, not_and]
  exact ⟨fun h l low high => h l high low, fun h l high low => h l low high⟩

lemma hasFsize_skip {later : Nat} (le : first ≤ later)
    (plain : ∀ l, first ≤ l → l < later → (p.info l).op ≠ .fsize) :
    hasFsize p first last = hasFsize p later last := by
  rw [Bool.eq_iff_iff, ← Bool.not_eq_false, ← Bool.not_eq_false, hasFsize_eq_false,
    hasFsize_eq_false]
  apply not_congr
  constructor
  · intro none l low high
    exact none l (by omega) high
  · intro none l low high
    by_cases early : l < later
    · exact plain l low early
    · exact none l (by omega) high

end Scans

/-- The second state has translated some labels in advance, none of them the size of the
file. -/
structure Ahead (p : Parser) (s s' : State) : Prop where
  wide : s.caches.exprs.length ≤ s.caches.deps.length
  reach : ∃ k, scan p k s = (none, s')
  plain : ∀ l, s.caches.exprs.length ≤ l → l < s'.caches.exprs.length → (p.info l).op ≠ .fsize

section Ahead

variable {σ : Setting} {p : Parser} {s s' : State} {label : Nat}

lemma Ahead.refl (wide : s.caches.exprs.length ≤ s.caches.deps.length) : Ahead p s s :=
  ⟨wide, ⟨0, rfl⟩, fun l low high => by omega⟩

lemma Ahead.frame (ahead : Ahead p s s') (b : Nat × Nat → Option BranchDependency) :
    Ahead p { s with branchDeps := b } { s' with branchDeps := b } := by
  obtain ⟨wide, ⟨k, reach⟩, plain⟩ := ahead
  refine ⟨wide, ⟨k, ?_⟩, plain⟩
  rw [scan_frame, reach]

lemma Ahead.memcmp (ahead : Ahead p s s') (l : Nat) (content : Nat → BitVec 8) :
    Ahead p (recordMemcmp s l content) (recordMemcmp s' l content) := by
  obtain ⟨wide, ⟨k, reach⟩, plain⟩ := ahead
  exact ⟨wide, ⟨k, scan_memcmp l content reach⟩, plain⟩

lemma addTask_frame (σ : Setting) (same : s'.branchDeps = s.branchDeps) (cond : Expr Name)
    (deps : Deps) (result save : Bool) :
    ∃ outcome b, addTask σ s cond deps result save = (outcome, { s with branchDeps := b }) ∧
      addTask σ s' cond deps result save = (outcome, { s' with branchDeps := b }) := by
  obtain ⟨caches, tsizes, records⟩ := s
  obtain ⟨caches', tsizes', _⟩ := s'
  cases same
  have closure : collectMoreDeps σ ⟨caches', tsizes', records⟩ deps =
      collectMoreDeps σ ⟨caches, tsizes, records⟩ deps := rfl
  simp only [addTask, closure]
  split
  · split
    · split
      · exact ⟨_, _, rfl, rfl⟩
      · exact ⟨_, records, rfl, rfl⟩
    all_goals exact ⟨_, records, rfl, rfl⟩
  · exact ⟨_, records, rfl, rfl⟩

lemma Ahead.records (ahead : Ahead p s s') : s'.branchDeps = s.branchDeps := by
  obtain ⟨k, reach⟩ := ahead.reach
  have same := (scan_caches p k s).2.1
  rw [reach] at same
  exact same

lemma Ahead.lookup (ahead : Ahead p s s') {l : Nat} (lt : l < s.caches.exprs.length) :
    s'.caches.lookup l = s.caches.lookup l := by
  obtain ⟨k, reach⟩ := ahead.reach
  obtain ⟨_, _, exprs, -, deps⟩ := scan_grows reach
  have wide := ahead.wide
  rw [Caches.lookup, exprs, deps, getD_append _ _ _ _ lt,
    getD_append _ _ _ _ (by omega), ← Caches.lookup]

lemma Ahead.split (ahead : Ahead p s s') {n : Nat}
    (le : s.caches.exprs.length + n ≤ s'.caches.exprs.length) :
    ∃ s1, scan p n s = (none, s1) ∧ s1.caches.exprs.length = s.caches.exprs.length + n ∧
      Ahead p s1 s' := by
  obtain ⟨wide, ⟨k, reach⟩, plain⟩ := ahead
  have long := scan_length reach
  obtain ⟨m, rfl⟩ : ∃ m, k = n + m := ⟨k - n, by omega⟩
  have still := scan_wide p n wide
  rw [scan_add] at reach
  generalize first : scan p n s = out at reach still
  obtain ⟨failure, s1⟩ := out
  cases failure with
  | some f => cases reach
  | none =>
    have long1 := scan_length first
    exact ⟨s1, rfl, long1, still, ⟨m, reach⟩, fun l low high => plain l (by omega) high⟩

/-- A call has the same outcome in both states, and they stay one ahead of the other. -/
lemma parseCond_ahead (ahead : Ahead σ.parser s s') (label : Nat) (result addNested : Bool) :
    (parseCond σ s' label result addNested).1 = (parseCond σ s label result addNested).1 ∧
      Ahead σ.parser (parseCond σ s label result addNested).2
        (parseCond σ s' label result addNested).2 := by
  have grown : s.caches.exprs.length ≤ s'.caches.exprs.length := by
    obtain ⟨k, reach⟩ := ahead.reach
    rw [scan_length reach]
    exact Nat.le_add_right _ k
  by_cases invalid : label < 1 ∨ label = kInitializingLabel ∨ σ.parser.size ≤ label
  · rw [show parseCond σ s label result addNested = (.error, s) from if_pos invalid,
      show parseCond σ s' label result addNested = (.error, s') from if_pos invalid]
    exact ⟨rfl, ahead⟩
  have call := parseCond_valid s invalid result addNested
  have call' := parseCond_valid s' invalid result addNested
  by_cases old : label < s'.caches.exprs.length
  · -- the label has been translated in advance
    obtain ⟨s1, scanned, long, after⟩ := ahead.split (n := label + 1 - s.caches.exprs.length)
      (by omega)
    have plain : hasFsize σ.parser s.caches.exprs.length s1.caches.exprs.length = false :=
      hasFsize_eq_false.mpr fun l low high => ahead.plain l low (by omega)
    have plain' : hasFsize σ.parser s'.caches.exprs.length s'.caches.exprs.length = false :=
      hasFsize_eq_false.mpr fun l low high => by omega
    have same : getCachedExpr s'.caches.lookup label ∅ =
        getCachedExpr s1.caches.lookup label ∅ := by
      rw [getCachedExpr, getCachedExpr, after.lookup (by omega)]
    rw [scanned] at call
    rw [show label + 1 - s'.caches.exprs.length = 0 by omega] at call'
    simp only [scan, same, plain, plain'] at call call'
    generalize getCachedExpr s1.caches.lookup label ∅ = out at call call'
    obtain ⟨e, deps⟩ := out
    cases e with
    | none =>
      rw [call, call']
      exact ⟨rfl, after⟩
    | some cond =>
      obtain ⟨_, b, added, added'⟩ := addTask_frame σ after.records cond deps result
        (addNested && !false)
      rw [call, call']
      simp only [added, added']
      exact ⟨trivial, after.frame b⟩
  · -- both translate the same labels after it
    obtain ⟨k, reach⟩ := ahead.reach
    have long := scan_length reach
    have total : scan σ.parser (label + 1 - s.caches.exprs.length) s =
        scan σ.parser (label + 1 - s'.caches.exprs.length) s' := by
      rw [show label + 1 - s.caches.exprs.length = k + (label + 1 - s'.caches.exprs.length) by
        omega, scan_add, reach]
    have wide' := scan_wide σ.parser k ahead.wide
    rw [reach] at wide'
    have still := scan_wide σ.parser (label + 1 - s'.caches.exprs.length) wide'
    rw [total] at call
    generalize scan σ.parser (label + 1 - s'.caches.exprs.length) s' = out at call call' still
    obtain ⟨failure, s1⟩ := out
    cases failure with
    | some f =>
      rw [call, call']
      cases f <;> exact ⟨rfl, .refl still⟩
    | none =>
      simp only [hasFsize_skip grown ahead.plain] at call call'
      generalize getCachedExpr s1.caches.lookup label ∅ = cached at call call'
      obtain ⟨e, deps⟩ := cached
      cases e with
      | none =>
        rw [call, call']
        exact ⟨rfl, .refl still⟩
      | some cond =>
        obtain ⟨_, b, added, -⟩ := addTask_frame σ (.refl s1.branchDeps) cond deps result
          (addNested && !hasFsize σ.parser s'.caches.exprs.length s1.caches.exprs.length)
        rw [call, call']
        dsimp only
        rw [added]
        exact ⟨rfl, .refl still⟩

end Ahead

/-! ## Runs -/

inductive Call where
  | cond (label : Nat) (result addNested : Bool)
  | memcmp (label : Nat) (content : Nat → BitVec 8)

/-- The outcomes of the branches of a sequence of calls. -/
def results (σ : Setting) : State → List Call → List Outcome
  | _, [] => []
  | s, .cond label result addNested :: calls =>
    (parseCond σ s label result addNested).1 ::
      results σ (parseCond σ s label result addNested).2 calls
  | s, .memcmp label content :: calls => results σ (recordMemcmp s label content) calls

/-- The states of a run whose calls are all accepted. -/
inductive CleanRun (σ : Setting) : State → Prop where
  | restart : CleanRun σ restart
  | memcmp {s : State} (before : CleanRun σ s) (label : Nat) (content : Nat → BitVec 8) :
      CleanRun σ (recordMemcmp s label content)
  | cond {s : State} (before : CleanRun σ s) (label : Nat) (result addNested : Bool)
      (accepted : Accepted σ s label) : CleanRun σ (parseCond σ s label result addNested).2

section Runs

variable {σ : Setting} {s s' : State}

lemma results_ahead (ahead : Ahead σ.parser s s') (calls : List Call) :
    results σ s' calls = results σ s calls := by
  induction calls generalizing s s' with
  | nil => rfl
  | cons call calls ih =>
    cases call with
    | cond label result addNested =>
      obtain ⟨same, next⟩ := parseCond_ahead ahead label result addNested
      simp only [results]
      rw [same, ih next]
    | memcmp label content => exact ih (ahead.memcmp label content)

lemma CleanRun.aligned (run : CleanRun σ s) : Aligned σ.parser s ∧ Contained σ s := by
  induction run with
  | restart => exact ⟨restart_aligned σ.parser, nofun⟩
  | memcmp before label content ih => exact ⟨recordMemcmp_aligned ih.1 label content, ih.2⟩
  | cond before label result addNested accepted ih =>
    rcases parseCond_spec ih.1 ih.2 label result addNested with ⟨-, aligned, contained, -⟩ |
      ⟨rejected, -⟩
    · exact ⟨aligned, contained⟩
    · exact absurd accepted rejected

/-- A call returns, and leaves the caches aligned if it fails, if and only if it is
accepted. The calls after one that fails then return what they would without it, unless
it has translated the size of the file. -/
theorem parseCond_reports_errors (σ : Setting) (s : State) (run : CleanRun σ s) (label : Nat)
    (result addNested : Bool) :
    ((((∃ task, (parseCond σ s label result addNested).1 = .task task) ∨
        (parseCond σ s label result addNested).1 = .error) ∧
      ((parseCond σ s label result addNested).1 = .error →
        Aligned σ.parser (parseCond σ s label result addNested).2)) ↔ Accepted σ s label) ∧
    (Accepted σ s label → (parseCond σ s label result addNested).1 = .error →
      hasFsize σ.parser s.caches.exprs.length (label + 1) = false →
      ∀ calls, results σ (parseCond σ s label result addNested).2 calls = results σ s calls) := by
  obtain ⟨aligned, contained⟩ := run.aligned
  rcases parseCond_spec aligned contained label result addNested with
    ⟨accepted, after, -, outcome⟩ | ⟨rejected, outcome⟩
  · refine ⟨⟨fun _ => accepted, fun _ => ⟨?_, fun _ => after⟩⟩, fun _ failed plain calls => ?_⟩
    · rcases outcome with task | ⟨failed, -⟩
      · exact .inl task
      · exact .inr failed
    rcases outcome with ⟨task, made⟩ | ⟨-, n, le, reach⟩
    · cases made.symm.trans failed
    have long := scan_length reach
    refine results_ahead ⟨Nat.le_of_eq aligned.deps.symm, ⟨n, reach⟩, ?_⟩ calls
    intro l low high
    exact hasFsize_eq_false.mp plain l low (by omega)
  · refine ⟨⟨fun returns => ?_, fun accepted => absurd accepted rejected⟩,
      fun accepted => absurd accepted rejected⟩
    obtain ⟨⟨_, made⟩ | failed, still⟩ := returns
    · rcases outcome with ⟨failed, -⟩ | escaped | hangs
      · cases made.symm.trans failed
      · cases made.symm.trans escaped
      · cases made.symm.trans hangs
    · rcases outcome with ⟨-, broken⟩ | escaped | hangs
      · exact absurd (still failed) broken
      · cases failed.symm.trans escaped
      · cases failed.symm.trans hangs

/-- A branch on a label that is not boolean. -/
theorem parseCond_reports_errors_number :
    let σ := oneInput [⟨0, 0, 0, 0, .input, 8, 0⟩, ⟨0, 0, 1, 0, .input, 8, 0⟩,
      ⟨1, 2, 0, 0, .add, 8, 0⟩, ⟨3, 0, 0, 65, .icmp .bveq, 8, 0⟩]
    (parseCond σ restart 3 true true).1 = .error ∧
      (parseCond σ restart 3 true true).2.caches.exprs.length = 4 ∧
      Aligned σ.parser (parseCond σ restart 3 true true).2 ∧
      ∀ calls, results σ (parseCond σ restart 3 true true).2 calls = results σ restart calls := by
  intro σ
  have sorted : ∀ k, k < 4 → (labelSort σ.parser (known restart) k).1.isSome = true := by
    decide +kernel
  have number : (labelSort σ.parser (known restart) 3).1 ≠ some (some .bool) := by decide +kernel
  have failed : (parseCond σ restart 3 true true).1 = .error := by rfl
  have accepted : Accepted σ restart 3 :=
    .inr ⟨fun k _ le => sorted k (by omega), fun bool => absurd bool number⟩
  obtain ⟨returns, silent⟩ := parseCond_reports_errors σ restart .restart 3 true true
  exact ⟨failed, by decide +kernel, (returns.mpr accepted).2 failed,
    silent accepted failed (by decide +kernel)⟩

def taskLength : Outcome → Option Nat
  | .task assertions => some assertions.length
  | _ => none

/-- A byte outside the input makes the call throw. A memory comparison without a content
makes it fail with one set of dependencies too many; once the content is there, the sets
are those of the labels before, and a later task misses the constraint it needs. -/
theorem parseCond_corrupts_caches :
    let outside := oneInput [⟨0, 0, 9, 0, .input, 8, 0⟩, ⟨1, 0, 0, 65, .icmp .bveq, 8, 0⟩]
    let σ := oneInput [⟨0, 0, 0, 0, .input, 8, 0⟩, ⟨0, 1, 0, 0, .fmemcmp, 1, 0⟩,
      ⟨0, 0, 1, 0, .input, 8, 0⟩, ⟨1, 0, 0, 65, .icmp .bveq, 8, 0⟩,
      ⟨1, 0, 0, 100, .icmp .bvult, 8, 0⟩]
    let s := (parseCond σ restart 2 true true).2
    let calls : List Call := [.memcmp 2 fun _ => 65, .cond 4 true true, .cond 5 true true]
    (parseCond outside restart 2 true true).1 = .escapes ∧
      (parseCond σ restart 2 true true).1 = .error ∧
      s.caches.deps.length = s.caches.exprs.length + 1 ∧
      (results σ s calls).map taskLength = [some 1, some 1] ∧
      (results σ restart calls).map taskLength = [some 1, some 2] := by
  refine ⟨rfl, rfl, ?_⟩
  decide +kernel

end Runs

end Z3Errors
