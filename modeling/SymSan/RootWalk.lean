import SymSan.FindRoots
import SymSan.TypedLabels

/-!
# The traversal as an evaluation

On a condition whose sub-conditions are all reached once, the iterative
traversal of `find_roots` is a post-order evaluation: every label is processed
once, on the finished nodes of its operands. The rule proved here is for any
property of a label and its node that processing one label establishes.
-/

namespace RootWalk

open LabelTable Denotation TypedLabels RgdAst FindRoots

variable {node t : AstNode} {c c' : Caches} {r : LabelInfo} {k l label : Nat} {p : Parser}
  {info : Nat → LabelInfo}

/-! ## What the scan records -/

def nestedStep (info : Nat → LabelInfo) (l : Nat) (earlier : Nat → Nat) : Nat :=
  if l = 0 ∨ (info l).op = .input ∨ (info l).op = .load then 0
  else ((if (info l).l1 = 0 then 0 else earlier (info l).l1) +
    (if (info l).l2 = 0 then 0 else earlier (info l).l2) +
      (if isCmp (info l).op then 1 else 0)) % 256

/-- The number of comparisons in a label, in 8 bits. -/
def nestedCmp (info : Nat → LabelInfo) : Nat → Nat := ScanTables.value (nestedStep info) 0

/-- The cache of nested comparisons belongs to the table. -/
def Scanned (p : Parser) (c : Caches) : Prop :=
  ∀ k, k < c.nestedCmp.length → c.nested k = nestedCmp p.info k

lemma nestedCmp_zero (info : Nat → LabelInfo) : nestedCmp info 0 = 0 := by
  rw [nestedCmp, ScanTables.value_eq, nestedStep]
  simp

lemma nestedCmp_lt (info : Nat → LabelInfo) (l : Nat) : nestedCmp info l < 256 := by
  rw [nestedCmp, ScanTables.value_eq, nestedStep]
  split
  · decide
  · exact Nat.mod_lt _ (by decide)

lemma nestedCmp_load (op : (info l).op = .load) : nestedCmp info l = 0 := by
  rw [nestedCmp, ScanTables.value_eq, nestedStep, if_pos (.inr (.inr op))]

lemma nestedCmp_zext (op : (info l).op = .zext) (symbolic : (info l).l1 ≠ 0)
    (unary : (info l).l2 = 0) (before : (info l).l1 < l) :
    nestedCmp info l = nestedCmp info (info l).l1 := by
  have small := nestedCmp_lt info (info l).l1
  have ne : l ≠ 0 := by omega
  rw [nestedCmp, ScanTables.value_eq, nestedStep]
  simp only [ne, op, symbolic, unary, before]
  exact Nat.mod_eq_of_lt small

/-- The cache of nested comparisons belongs to the table and is in step with the
cache of sizes. -/
structure InStep (p : Parser) (c : Caches) : Prop where
  scanned : Scanned p c
  aligned : c.nestedCmp.length = c.astSize.length

/-- A round that succeeds pushes one entry, over the record and the earlier entries. -/
lemma scanLabel_pushes (h : scanLabel p c = (true, c')) : let r := p.info c.astSize.length
    c' = c.push (if c.astSize.length = 0 ∨ r.op = .input ∨ r.op = .load then 1 else
        ((if r.l1 = 0 then 1 else c.astSize.getD r.l1 0) +
          (if r.l2 = 0 then 1 else c.astSize.getD r.l2 0) + 1) % 2 ^ 32)
      (nestedStep p.info c.astSize.length c.nested) := by
  simp only [scanLabel] at h
  split at h
  next zero =>
    cases h
    simp [nestedStep, zero]
  rename_i ne
  split at h
  · cases h
  rename_i r known
  cases getLabelInfo_eq known
  split at h
  · cases h
  split at h
  iterate 2
    next op =>
      repeat' split at h
      all_goals cases h
      simp [nestedStep, op]
  next notInput notLoad =>
    cases h
    have other : ¬(c.astSize.length = 0 ∨ (p.info c.astSize.length).op = .input ∨
        (p.info c.astSize.length).op = .load) := by
      rintro (zero | op | op)
      exacts [ne zero, notInput op, notLoad op]
    simp only [nestedStep, if_neg other]

lemma scanLabel_inStep (before : InStep p c) (h : scanLabel p c = (true, c')) :
    InStep p c' ∧ c'.astSize.length = c.astSize.length + 1 := by
  obtain ⟨scanned, aligned⟩ := before
  have next := ScanTables.Begins.push scanned
  rw [aligned] at next
  cases scanLabel_pushes h
  exact ⟨⟨next, by simp [Caches.push, aligned]⟩, by simp [Caches.push]⟩

lemma scanMany_inStep (before : InStep p c) (h : scanMany p k c = (true, c')) :
    InStep p c' ∧ c'.astSize.length = c.astSize.length + k := by
  induction k generalizing c with
  | zero =>
    cases h
    exact ⟨before, rfl⟩
  | succ k ih =>
    simp only [scanMany] at h
    split at h
    next c1 first =>
      obtain ⟨between, _⟩ := scanLabel_inStep before first
      obtain ⟨after, _⟩ := ih between h
      exact ⟨after, by omega⟩
    · cases h

/-- A successful `scan_labels` leaves caches that belong to the table and cover the
label. -/
lemma scanLabels_inStep (before : InStep p c) (h : scanLabels p c label = (true, c')) :
    InStep p c' ∧ label < c'.nestedCmp.length := by
  obtain ⟨after, _⟩ := scanMany_inStep before h
  have aligned := after.aligned
  exact ⟨after, by omega⟩

/-! ## The recursive evaluation -/

section Evaluation

variable (p : Parser) (nested : Nat → Nat)

/-- The label whose node becomes the first child, if there is one. -/
def leftKid (r : LabelInfo) : Option Nat :=
  if nested r.l1 = 0 then none else (stripZext p r.l1).filter (· ≠ 0)

def rightKid (r : LabelInfo) : Option Nat := (stripZext p r.l2).filter (0 < nested ·)

def IsKid (k y : Nat) : Prop :=
  leftKid p nested (p.info k) = some y ∨ rightKid p nested (p.info k) = some y

def footprintStep (k : Nat) (below : Nat → List Nat) : List Nat :=
  k :: ((leftKid p nested (p.info k)).toList ++ (rightKid p nested (p.info k)).toList).flatMap below

/-- The labels that become nodes, one entry for every path to them. -/
def footprint : Nat → List Nat := ScanTables.value (footprintStep p nested) []

/-- The part of a footprint that comes from one kid. -/
def kidFootprint (kid : Option Nat) : List Nat := kid.toList.flatMap (footprint p nested)

def evaluateKid (below : Nat → Caches → Option (AstNode × Caches)) (kid : Option Nat)
    (c : Caches) : Option (Option AstNode × Caches) :=
  match kid with
  | none => some (none, c)
  | some k => (below k c).map fun (t, c) => (some t, c)

/-- A new node with the given children. -/
def withKids : Option AstNode → Option AstNode → AstNode
  | none, none => .fresh
  | some a, none => .node1 .fresh a
  | none, some b => .node1 .fresh b
  | some a, some b => .node2 .fresh a b

def evaluateStep (k : Nat) (below : Nat → Caches → Option (AstNode × Caches)) (c : Caches) :
    Option (AstNode × Caches) :=
  (evaluateKid below (leftKid p nested (p.info k)) c).bind fun (left, c) =>
  (evaluateKid below (rightKid p nested (p.info k)) c).bind fun (right, c) =>
  processNode p c (p.info k) k (withKids left right)

/-- Processing the operands first, recursively. -/
def evaluate : Nat → Caches → Option (AstNode × Caches) :=
  ScanTables.value (evaluateStep p nested) fun _ => none

/-- A kid comes before its label, contains comparisons and belongs to its sub-DAG. -/
structure KidOf (x y : Nat) : Prop where
  ne : y ≠ 0
  lt : y < x
  nested : nested y ≠ 0
  notLoad : (p.info y).op ≠ .load
  reach : InDag p.info x y

/-- The traversal of `k` goes down the table; the second field of a Load would not. -/
structure Descends (k : Nat) : Prop where
  notLoad : (p.info k).op ≠ .load
  kidOf : ∀ x, InDag p.info k x → (p.info x).op ≠ .load → ∀ y, IsKid p nested x y →
    KidOf p nested x y

end Evaluation

section Unfolding

variable {p : Parser} {nested : Nat → Nat} {k x : Nat}

lemma inDag_trans (first : InDag info l k) (second : InDag info k x) : InDag info l x := by
  induction first with
  | self => exact second
  | first symbolic rest ih => exact .first symbolic (ih second)
  | second symbolic notLoad rest ih => exact .second symbolic notLoad (ih second)

lemma Descends.kid (down : Descends p nested k) {y : Nat} (kid : IsKid p nested k y) :
    y ≠ 0 ∧ y < k ∧ Descends p nested y := by
  have here := down.kidOf k .self down.notLoad y kid
  exact ⟨here.ne, here.lt, here.notLoad,
    fun x inside => down.kidOf x (inDag_trans here.reach inside)⟩

@[simp] lemma kidFootprint_none : kidFootprint p nested none = [] := rfl

@[simp] lemma kidFootprint_some (y : Nat) :
    kidFootprint p nested (some y) = footprint p nested y := by
  simp [kidFootprint]

lemma mem_kidFootprint {kid : Option Nat} : x ∈ kidFootprint p nested kid ↔
    ∃ y, kid = some y ∧ x ∈ footprint p nested y := by
  cases kid <;> simp

section

variable (down : Descends p nested k)

include down

lemma footprint_eq : footprint p nested k =
    k :: (kidFootprint p nested (leftKid p nested (p.info k)) ++
      kidFootprint p nested (rightKid p nested (p.info k))) := by
  have left : ∀ y, leftKid p nested (p.info k) = some y → y < k :=
    fun y kid => (down.kid (.inl kid)).2.1
  have right : ∀ y, rightKid p nested (p.info k) = some y → y < k :=
    fun y kid => (down.kid (.inr kid)).2.1
  rw [footprint, ScanTables.value_eq, footprintStep, ← footprint]
  cases l : leftKid p nested (p.info k) <;> cases r : rightKid p nested (p.info k) <;>
    simp [left, right, l, r]

lemma mem_footprint : x ∈ footprint p nested k ↔
    x = k ∨ ∃ y, IsKid p nested k y ∧ x ∈ footprint p nested y := by
  rw [footprint_eq down]
  simp [mem_kidFootprint, IsKid, or_and_right, exists_or]

lemma footprint_nodup (nodup : (footprint p nested k).Nodup) :
    (∀ y, IsKid p nested k y → (footprint p nested y).Nodup ∧ k ∉ footprint p nested y) ∧
      ∀ x ∈ kidFootprint p nested (rightKid p nested (p.info k)),
        x ∉ kidFootprint p nested (leftKid p nested (p.info k)) := by
  rw [footprint_eq down] at nodup
  obtain ⟨notBelow, nodup⟩ := List.nodup_cons.mp nodup
  obtain ⟨nodupL, nodupR, disjoint⟩ := List.nodup_append.mp nodup
  rw [List.mem_append, not_or] at notBelow
  refine ⟨?_, fun x right left => disjoint x left x right rfl⟩
  rintro y (kid | kid)
  · rw [kid, kidFootprint_some] at nodupL notBelow
    exact ⟨nodupL, notBelow.1⟩
  · rw [kid, kidFootprint_some] at nodupR notBelow
    exact ⟨nodupR, notBelow.2⟩

lemma self_mem_footprint : k ∈ footprint p nested k :=
  (mem_footprint down).mpr (.inl rfl)

lemma footprint_inDag (inside : x ∈ footprint p nested k) :
    InDag p.info k x ∧ (p.info x).op ≠ .load := by
  induction k using Nat.strongRecOn with
  | ind k ih =>
    rcases (mem_footprint down).mp inside with rfl | ⟨y, kid, rest⟩
    · exact ⟨.self, down.notLoad⟩
    · obtain ⟨-, lt, below⟩ := down.kid kid
      obtain ⟨reach, notLoad⟩ := ih y lt below rest
      exact ⟨inDag_trans (down.kidOf k .self down.notLoad y kid).reach reach, notLoad⟩

end

lemma evaluateKid_congr {below below' : Nat → Caches → Option (AstNode × Caches)}
    {kid : Option Nat} (same : ∀ y, kid = some y → below y = below' y) :
    evaluateKid below kid = evaluateKid below' kid := by
  funext c
  cases kid with
  | none => rfl
  | some y => simp only [evaluateKid, same y rfl]

lemma evaluate_eq (down : Descends p nested k) :
    evaluate p nested k = evaluateStep p nested k (evaluate p nested) := by
  have below : ∀ y, IsKid p nested k y →
      (fun j => if j < k then evaluate p nested j else fun _ => none) y = evaluate p nested y := by
    intro y kid
    exact if_pos (down.kid kid).2.1
  funext c
  rw [evaluate, ScanTables.value_eq, ← evaluate, evaluateStep, evaluateStep,
    evaluateKid_congr fun y kid => below y (.inl kid),
    evaluateKid_congr fun y kid => below y (.inr kid)]

lemma evaluate_some (down : Descends p nested k) (h : evaluate p nested k c = some (t, c')) :
    ∃ left c1 right c2,
      evaluateKid (evaluate p nested) (leftKid p nested (p.info k)) c = some (left, c1) ∧
      evaluateKid (evaluate p nested) (rightKid p nested (p.info k)) c1 = some (right, c2) ∧
      processNode p c2 (p.info k) k (withKids left right) = some (t, c') := by
  rw [evaluate_eq down] at h
  obtain ⟨⟨left, c1⟩, first, h⟩ := Option.bind_eq_some_iff.mp h
  obtain ⟨⟨right, c2⟩, second, h⟩ := Option.bind_eq_some_iff.mp h
  exact ⟨left, c1, right, c2, first, second, h⟩

end Unfolding

/-! ## What processing leaves alone -/

/-- From `c` to `c'` only the entries of the labels in `changed` are new. -/
structure Keeps (c c' : Caches) (changed : List Nat) : Prop where
  nested : c'.nested = c.nested
  entry : ∀ x, x ∉ changed → c'.astSize[x]? = c.astSize[x]? ∧ c'.concretize x = c.concretize x

lemma Keeps.refl (c : Caches) (changed : List Nat) : Keeps c c changed :=
  ⟨rfl, fun _ _ => ⟨rfl, rfl⟩⟩

lemma Keeps.trans {c1 c2 : Caches} {changed more all : List Nat} (first : Keeps c c1 changed)
    (second : Keeps c1 c2 more) (left : changed ⊆ all) (right : more ⊆ all) : Keeps c c2 all := by
  refine ⟨second.nested.trans first.nested, fun x apart => ?_⟩
  have here := first.entry x fun inside => apart (left inside)
  have there := second.entry x fun inside => apart (right inside)
  exact ⟨there.1.trans here.1, there.2.trans here.2⟩

lemma concretizeLeaf_keeps {concretize : Nat}
    (h : concretizeLeaf p c r label = some (concretize, c')) : Keeps c c' [label] := by
  obtain ⟨_, -, h⟩ := Option.bind_eq_some_iff.mp h
  split at h
  · obtain ⟨_, -, h⟩ := Option.bind_eq_some_iff.mp h
    obtain ⟨_, -, h⟩ := Option.bind_eq_some_iff.mp h
    cases h
    refine ⟨rfl, fun x apart => ?_⟩
    have ne : x ≠ label := fun same => apart (List.mem_singleton.mpr same)
    exact ⟨List.getElem?_set_ne ne.symm, if_neg ne⟩
  · cases h
    exact .refl _ _

lemma processIcmp_keeps {q : Predicate} (h : processIcmp p c q r label node = some (t, c')) :
    Keeps c c' [label] := by
  simp only [processIcmp] at h
  split at h
  · simp only [processLeaf] at h
    obtain ⟨⟨_, _⟩, leaf, h⟩ := Option.bind_eq_some_iff.mp h
    have keeps := concretizeLeaf_keeps leaf
    split at h
    · cases h
      exact keeps
    · obtain ⟨_, _, ⟨⟩⟩ := Option.map_eq_some_iff.mp h
      exact keeps
  · repeat' split at h
    all_goals first
      | (cases h; exact .refl _ _)
      | (obtain ⟨_, _, ⟨⟩⟩ := Option.map_eq_some_iff.mp h; exact .refl _ _)
      | cases h

lemma processNode_keeps (h : processNode p c r label node = some (t, c')) :
    Keeps c c' [label] := by
  simp only [processNode] at h
  split at h
  case h_5 => exact processIcmp_keeps h
  case h_7 => cases h
  all_goals
    obtain ⟨_, _, ⟨⟩⟩ := Option.map_eq_some_iff.mp h
    exact .refl _ _

lemma evaluateKid_keeps {nested : Nat → Nat} {kid : Option Nat} {t : Option AstNode}
    (keeps : ∀ y, kid = some y → ∀ {c c' t}, evaluate p nested y c = some (t, c') →
      Keeps c c' (footprint p nested y))
    (h : evaluateKid (evaluate p nested) kid c = some (t, c')) :
    Keeps c c' (kidFootprint p nested kid) := by
  cases kid with
  | none =>
    cases h
    exact .refl _ _
  | some y =>
    obtain ⟨⟨t, _⟩, inner, ⟨⟩⟩ := Option.map_eq_some_iff.mp h
    rw [kidFootprint_some]
    exact keeps y rfl inner

lemma evaluate_keeps {nested : Nat → Nat} (down : Descends p nested k)
    (h : evaluate p nested k c = some (t, c')) : Keeps c c' (footprint p nested k) := by
  induction k using Nat.strongRecOn generalizing c c' t with
  | ind k ih =>
    obtain ⟨_, _, _, _, first, second, last⟩ := evaluate_some down h
    have inner : ∀ y, IsKid p nested k y → ∀ {c c' t}, evaluate p nested y c = some (t, c') →
        Keeps c c' (footprint p nested y) := by
      intro y kid c c' t h
      obtain ⟨-, lt, below⟩ := down.kid kid
      exact ih y lt below h
    have keeps1 := evaluateKid_keeps (fun y kid => inner y (.inl kid)) first
    have keeps2 := evaluateKid_keeps (fun y kid => inner y (.inr kid)) second
    have keeps := keeps1.trans keeps2 (List.subset_append_left _ _) (List.subset_append_right _ _)
    rw [footprint_eq down]
    exact keeps.trans (processNode_keeps last) (List.subset_cons_self _ _)
      (List.cons_subset.mpr ⟨List.mem_cons_self, List.nil_subset _⟩)

/-! ## The iterative traversal -/

section Traversal

variable {p : Parser} {nested : Nat → Nat} {k fuel y : Nat} {out : AstNode × Caches}
  {node t : AstNode} {c c' : Caches} {rest : List Frame} {Q : Nat → AstNode → Prop} {w : Walk}

/-- The rest of a run after one step. -/
def resume (p : Parser) (fuel : Nat) : Outcome → Option (AstNode × Caches)
  | .running w => walk p fuel w
  | .finished t c => some (t, c)
  | .invalid => none

lemma walk_some (h : walk p fuel w = some out) : ∃ less, resume p less (step p w) = some out := by
  cases fuel with
  | zero => cases h
  | succ less =>
    refine ⟨less, ?_⟩
    rw [walk] at h
    cases now : step p w with
    | running w' | finished t c => simpa only [now, resume] using h
    | invalid => simp only [now, reduceCtorEq] at h

/-- A state in which no label of `ahead` has been touched. -/
structure Untouched (nested : Nat → Nat) (ahead : List Nat) (w : Walk) : Prop where
  nested : w.caches.nested = nested
  apart : ∀ x, x ∈ ahead → x ∉ w.visited
  prev : w.prev = 0 ∨ w.prev ∈ w.visited

/-- From any state that reaches the untouched label `k`, a run that ends evaluates
`k` and then takes its frame off. -/
def Evaluates (p : Parser) (nested : Nat → Nat) (k : Nat) : Prop :=
  ∀ {fuel : Nat} {w : Walk} {out : AstNode × Caches}, w.root = k →
    Untouched nested (footprint p nested k) w → walk p fuel w = some out →
    ∃ t c visited arena less, evaluate p nested k w.caches = some (t, c) ∧
      (∀ x, x ∈ visited → x ∈ w.visited ∨ x ∈ footprint p nested k) ∧
      resume p less (popFrame { w with visited := visited, arena := arena } k t c w.frames) =
        some out

/-- The run is back at the frame of `k`, with the node built so far, after touching
no labels but `touched`. -/
structure Back (p : Parser) (w w' : Walk) (k : Nat) (node : AstNode) (touched : List Nat)
    (out : AstNode × Caches) : Prop where
  root : w'.root = 0
  frames : w'.frames = ⟨k, node⟩ :: w.frames
  prev : w'.prev = 0 ∨ w'.prev ∈ w'.visited
  visited : ∀ x, x ∈ w'.visited → x ∈ w.visited ∨ x ∈ touched
  run : ∃ fuel, walk p fuel w' = some out

/-- Going down to a kid `y` writes its node into the frame. -/
lemma goDown_evaluates (evaluates : Evaluates p nested y)
    (fresh : Untouched nested (footprint p nested y) w)
    (h : resume p fuel (goDown p w ⟨k, node⟩ rest y) = some out) :
    ∃ grown t w', node.addChild = some grown ∧
      evaluate p nested y w.caches = some (t, w'.caches) ∧ w'.prev = y ∧
      w'.frames = ⟨k, grown.setLast t⟩ :: rest ∧ w'.root = 0 ∧ y ∈ w'.visited ∧
      (∀ x ∈ w'.visited, x ∈ w.visited ∨ x = y ∨ x ∈ footprint p nested y) ∧
      ∃ less, walk p less w' = some out := by
  simp only [goDown] at h
  split at h
  · cases h
  split at h
  · cases h
  rename_i grown added
  have ahead : Untouched nested (footprint p nested y)
      { w with root := y, frames := ⟨k, grown⟩ :: rest, arena := w.arena + 1 } :=
    ⟨fresh.nested, fresh.apart, fresh.prev⟩
  obtain ⟨t, c, visited, arena, less, value, inside, h⟩ := evaluates rfl ahead h
  refine ⟨grown, t, ⟨0, y, ⟨k, grown.setLast t⟩ :: rest, y :: visited, arena, c⟩, added,
    value, rfl, rfl, rfl, List.mem_cons_self, ?_, less, h⟩
  intro x member
  rcases List.mem_cons.mp member with same | member
  · exact .inr (.inl same)
  · exact (inside x member).imp_right .inr

/-- The first half of a label: its left kid is evaluated. -/
lemma stepDown_left (down : Descends p nested k) (ne : k ≠ 0)
    (kids : ∀ y, IsKid p nested k y → Evaluates p nested y) (root : w.root = k)
    (fresh : Untouched nested (footprint p nested k) w) (h : walk p fuel w = some out) :
    ∃ left w', evaluateKid (evaluate p nested) (leftKid p nested (p.info k)) w.caches =
        some (left, w'.caches) ∧
      Back p w w' k (withKids left none)
        (kidFootprint p nested (leftKid p nested (p.info k))) out := by
  obtain ⟨less, h⟩ := walk_some h
  have unvisited : k ∉ w.visited := fresh.apart k (self_mem_footprint down)
  simp only [step, root, ne, ne_eq, not_false_eq_true, if_true, stepDown, unvisited, if_false,
    Parser.getLabelInfo] at h
  by_cases large : p.size ≤ k
  · simp only [large, if_true, resume, reduceCtorEq] at h
  simp only [large, if_false, fresh.nested] at h
  have stay : leftKid p nested (p.info k) = none →
      walk p less { w with root := 0, frames := ⟨k, .fresh⟩ :: w.frames } = some out →
      ∃ left w', evaluateKid (evaluate p nested) (leftKid p nested (p.info k)) w.caches =
          some (left, w'.caches) ∧
        Back p w w' k (withKids left none)
          (kidFootprint p nested (leftKid p nested (p.info k))) out := by
    intro kid h
    rw [kid]
    exact ⟨none, { w with root := 0, frames := ⟨k, .fresh⟩ :: w.frames }, rfl,
      ⟨rfl, rfl, fresh.prev, fun x member => .inl member, less, h⟩⟩
  by_cases flat : nested (p.info k).l1 = 0
  · exact stay (if_pos flat) (by simpa only [flat, if_true, resume] using h)
  simp only [flat, if_false] at h
  rcases strip : stripZext p (p.info k).l1 with _ | y
  · simp only [strip, resume, reduceCtorEq] at h
  simp only [strip] at h
  by_cases zero : y = 0
  · have kid : leftKid p nested (p.info k) = none := by
      simp [leftKid, strip, zero]
    exact stay kid (by simpa only [zero, if_true, resume] using h)
  have kid : leftKid p nested (p.info k) = some y := by
    simp [leftKid, flat, strip, zero]
  simp only [zero, if_false] at h
  have inside : footprint p nested y ⊆ footprint p nested k := fun x member =>
    (mem_footprint down).mpr (.inr ⟨y, .inl kid, member⟩)
  have self := self_mem_footprint (down.kid (.inl kid)).2.2
  obtain ⟨_, t, w', added, value, prev, frames, atRoot, mem, visited, run⟩ :=
    goDown_evaluates (kids y (.inl kid))
      ⟨fresh.nested, fun x member => fresh.apart x (inside member), fresh.prev⟩ h
  cases added
  refine ⟨some t, w', ?_, atRoot, frames, .inr (prev ▸ mem), ?_, run⟩
  · simp [kid, evaluateKid, value]
  intro x member
  rw [kid, kidFootprint_some]
  rcases visited x member with old | same | new
  · exact .inl old
  · exact .inr (same ▸ self)
  · exact .inr new

section

variable (root : w.root = 0) (frames : w.frames = ⟨k, node⟩ :: rest)
  (nest : w.caches.nested = nested)

include root frames nest

lemma stepUp_process (done : ∀ y, rightKid p nested (p.info k) = some y → w.prev = y)
    (h : walk p fuel w = some out) :
    ∃ t c less, processNode p w.caches (p.info k) k node = some (t, c) ∧
      resume p less (popFrame w k t c rest) = some out := by
  obtain ⟨less, h⟩ := walk_some h
  simp only [step, root, ne_eq, not_true_eq_false, if_false, frames, stepUp,
    Parser.getLabelInfo] at h
  by_cases large : p.size ≤ k
  · simp only [large, if_true, resume, reduceCtorEq] at h
  simp only [large, if_false] at h
  cases strip : stripZext p (p.info k).l2 with
  | none => simp only [strip, resume, reduceCtorEq] at h
  | some y =>
    have stop : ¬(0 < w.caches.nested y ∧ w.prev ≠ y) := by
      rintro ⟨pos, ne⟩
      rw [nest] at pos
      exact ne (done y (by simp [rightKid, strip, pos]))
    simp only [strip, if_neg stop] at h
    cases made : processNode p w.caches (p.info k) k node with
    | none => simp only [made, resume, reduceCtorEq] at h
    | some result => exact ⟨result.1, result.2, less, rfl, by simpa only [made] using h⟩

lemma stepUp_down (kid : rightKid p nested (p.info k) = some y) (todo : w.prev ≠ y)
    (h : walk p fuel w = some out) :
    ∃ less, resume p less (goDown p w ⟨k, node⟩ rest y) = some out := by
  obtain ⟨less, h⟩ := walk_some h
  simp only [step, root, ne_eq, not_true_eq_false, if_false, frames, stepUp,
    Parser.getLabelInfo] at h
  by_cases large : p.size ≤ k
  · simp only [large, if_true, resume, reduceCtorEq] at h
  · obtain ⟨strip, pos⟩ := Option.filter_eq_some_iff.mp kid
    have go : 0 < w.caches.nested y ∧ w.prev ≠ y := ⟨nest ▸ of_decide_eq_true pos, todo⟩
    simp only [large, if_false, strip, if_pos go] at h
    exact ⟨less, h⟩

end

/-- The second half of a label: its right kid is evaluated and its node processed. -/
lemma stepUp_right (down : Descends p nested k)
    (kids : ∀ y, IsKid p nested k y → Evaluates p nested y) {w' : Walk} {left : Option AstNode}
    {touched : List Nat} (back : Back p w w' k (withKids left none) touched out)
    (nest : w'.caches.nested = nested)
    (apart : ∀ x ∈ kidFootprint p nested (rightKid p nested (p.info k)),
      x ∉ w.visited ∧ x ∉ touched) :
    ∃ right c t c' visited arena less,
      evaluateKid (evaluate p nested) (rightKid p nested (p.info k)) w'.caches = some (right, c) ∧
      processNode p c (p.info k) k (withKids left right) = some (t, c') ∧
      (∀ x ∈ visited, x ∈ w.visited ∨ x ∈ touched ∨
        x ∈ kidFootprint p nested (rightKid p nested (p.info k))) ∧
      resume p less (popFrame { w with visited := visited, arena := arena } k t c' w.frames) =
        some out := by
  obtain ⟨_, run⟩ := back.run
  cases kid : rightKid p nested (p.info k) with
  | none =>
    obtain ⟨t, c, less, made, h⟩ := stepUp_process back.root back.frames nest
      (fun y some => by rw [kid] at some; cases some) run
    refine ⟨none, w'.caches, t, c, w'.visited, w'.arena, less, rfl, made, ?_, ?_⟩
    · intro x member
      exact (back.visited x member).imp_right .inl
    · cases frames : w.frames <;> simpa only [frames, popFrame] using h
  | some y =>
    obtain ⟨ne, -, below⟩ := down.kid (.inr kid)
    have self := self_mem_footprint below
    have notYet : ∀ x ∈ footprint p nested y, x ∉ w'.visited := by
      intro x member seen
      obtain ⟨old, new⟩ := apart x (by rw [kid, kidFootprint_some]; exact member)
      exact (back.visited x seen).elim old new
    have prev : w'.prev ≠ y := by
      rintro rfl
      exact back.prev.elim ne (notYet _ self)
    obtain ⟨_, goes⟩ := stepUp_down back.root back.frames nest kid prev run
    obtain ⟨grown, b, w2, added, value, prev2, frames2, root2, _, visited, _, run2⟩ :=
      goDown_evaluates (kids y (.inr kid)) ⟨nest, notYet, back.prev⟩ goes
    have node : grown.setLast b = withKids left (some b) := by
      cases left <;> cases added <;> rfl
    have nest2 : w2.caches.nested = nested := (evaluate_keeps below value).nested.trans nest
    obtain ⟨t, c, last, made, h⟩ := stepUp_process root2 frames2 nest2
      (fun z same => prev2.trans (Option.some.inj (kid.symm.trans same))) run2
    refine ⟨some b, w2.caches, t, c, w2.visited, w2.arena, last, ?_, node ▸ made, ?_, ?_⟩
    · simp [evaluateKid, value]
    · intro x member
      rcases visited x member with old | same | new
      · exact (back.visited x old).imp_right .inl
      · exact .inr (.inr (by rw [kidFootprint_some, same]; exact self))
      · exact .inr (.inr (by rw [kidFootprint_some]; exact new))
    · cases frames : w.frames <;> simpa only [frames, popFrame] using h

lemma evaluates_of_nodup (down : Descends p nested k) (ne : k ≠ 0)
    (nodup : (footprint p nested k).Nodup) : Evaluates p nested k := by
  induction k using Nat.strongRecOn with
  | ind k ih =>
    intro fuel w out root fresh h
    obtain ⟨parts, disjoint⟩ := footprint_nodup down nodup
    have kids : ∀ y, IsKid p nested k y → Evaluates p nested y := by
      intro y kid
      obtain ⟨ne, lt, below⟩ := down.kid kid
      exact ih y lt below ne (parts y kid).1
    obtain ⟨_, w', first, back⟩ := stepDown_left down ne kids root fresh h
    have nest : w'.caches.nested = nested := by
      have keeps := evaluateKid_keeps (fun y kid => evaluate_keeps (down.kid (.inl kid)).2.2) first
      exact keeps.nested.trans fresh.nested
    have ahead : ∀ x ∈ kidFootprint p nested (rightKid p nested (p.info k)),
        x ∉ w.visited ∧ x ∉ kidFootprint p nested (leftKid p nested (p.info k)) := by
      intro x member
      obtain ⟨y, kid, inside⟩ := mem_kidFootprint.mp member
      exact ⟨fresh.apart x ((mem_footprint down).mpr (.inr ⟨y, .inr kid, inside⟩)),
        disjoint x member⟩
    obtain ⟨_, c, t, c', visited, arena, less, second, made, inside, h⟩ :=
      stepUp_right down kids back nest ahead
    refine ⟨t, c', visited, arena, less, ?_, ?_, h⟩
    · simp [evaluate_eq down, evaluateStep, first, second, made]
    intro x member
    rw [footprint_eq down, List.mem_cons, List.mem_append]
    rcases inside x member with old | new | new
    · exact .inl old
    · exact .inr (.inr (.inl new))
    · exact .inr (.inr (.inr new))

/-- On a label with a footprint without repetitions `find_roots` is the recursive
evaluation. -/
lemma findRoots_evaluate (down : Descends p c.nested k) (ne : k ≠ 0)
    (nodup : (footprint p c.nested k).Nodup) (h : findRoots p c fuel k = some out) :
    evaluate p c.nested k c = some out := by
  obtain ⟨t, _, _, _, _, value, -, done⟩ :=
    evaluates_of_nodup down ne nodup rfl ⟨rfl, fun _ _ => List.not_mem_nil, .inl rfl⟩ h
  cases done
  exact value

/-! ## The rule for a property of labels and nodes -/

/-- When `x` is processed, its own entries and those of the labels without comparison
are as they were before the traversal. -/
def AsBefore (c now : Caches) (x : Nat) : Prop :=
  ∃ changed, Keeps c now changed ∧ x ∉ changed ∧ ∀ y, y ∈ changed → c.nested y ≠ 0

/-- Processing a label establishes `Q` for it when it holds for its kids. -/
def Closed (p : Parser) (c : Caches) (Q : Nat → AstNode → Prop) (x : Nat) : Prop :=
  ∀ left right now t c', Option.Rel Q (leftKid p c.nested (p.info x)) left →
    Option.Rel Q (rightKid p c.nested (p.info x)) right → AsBefore c now x →
    processNode p now (p.info x) x (withKids left right) = some (t, c') → Q x t

lemma footprint_nested (down : Descends p nested k) (here : nested k ≠ 0) {x : Nat}
    (inside : x ∈ footprint p nested k) : nested x ≠ 0 := by
  induction k using Nat.strongRecOn with
  | ind k ih =>
    rcases (mem_footprint down).mp inside with rfl | ⟨y, kid, rest⟩
    · exact here
    · obtain ⟨-, lt, below⟩ := down.kid kid
      exact ih y lt below (down.kidOf k .self down.notLoad y kid).nested rest

lemma evaluateKid_rel {kid : Option Nat} {t : Option AstNode}
    (holds : ∀ y, kid = some y → ∀ {t c'}, evaluate p nested y c = some (t, c') → Q y t)
    (h : evaluateKid (evaluate p nested) kid c = some (t, c')) : Option.Rel Q kid t := by
  cases kid with
  | none =>
    cases h
    exact .none
  | some y =>
    obtain ⟨⟨t, _⟩, inner, ⟨⟩⟩ := Option.map_eq_some_iff.mp h
    exact .some (holds y rfl inner)

lemma evaluate_rule (down : Descends p c.nested k) (nodup : (footprint p c.nested k).Nodup)
    (closed : ∀ x ∈ footprint p c.nested k, Closed p c Q x) {now : Caches} {changed : List Nat}
    (keeps : Keeps c now changed) (apart : ∀ x ∈ footprint p c.nested k, x ∉ changed)
    (nest : ∀ y ∈ changed, c.nested y ≠ 0) (h : evaluate p c.nested k now = some (t, c')) :
    Q k t := by
  induction k using Nat.strongRecOn generalizing now c' t changed with
  | ind k ih =>
    obtain ⟨left, _, right, c2, first, second, last⟩ := evaluate_some down h
    obtain ⟨parts, disjoint⟩ := footprint_nodup down nodup
    have inside : ∀ y, IsKid p c.nested k y → footprint p c.nested y ⊆ footprint p c.nested k :=
      fun y kid x member => (mem_footprint down).mpr (.inr ⟨y, kid, member⟩)
    have holds : ∀ y, IsKid p c.nested k y → ∀ {now : Caches} {changed : List Nat},
        Keeps c now changed → (∀ x ∈ footprint p c.nested y, x ∉ changed) →
        (∀ y ∈ changed, c.nested y ≠ 0) →
        ∀ {t c'}, evaluate p c.nested y now = some (t, c') → Q y t := by
      intro y kid now changed keeps apart nest t c' h
      obtain ⟨-, lt, below⟩ := down.kid kid
      exact ih y lt below (parts y kid).1 (fun x member => closed x (inside y kid member))
        keeps apart nest h
    have grow : ∀ {kid : Option Nat} {now now' : Caches} {changed : List Nat} {t : Option AstNode},
        (∀ y, kid = some y → IsKid p c.nested k y) → Keeps c now changed →
        (∀ y ∈ changed, c.nested y ≠ 0) →
        evaluateKid (evaluate p c.nested) kid now = some (t, now') →
        Keeps c now' (changed ++ kidFootprint p c.nested kid) ∧
          ∀ y ∈ changed ++ kidFootprint p c.nested kid, c.nested y ≠ 0 := by
      intro kid now now' changed t isKid keeps nest h
      refine ⟨keeps.trans
        (evaluateKid_keeps (fun y some => evaluate_keeps (down.kid (isKid y some)).2.2) h)
        (List.subset_append_left _ _) (List.subset_append_right _ _), ?_⟩
      intro y member
      rcases List.mem_append.mp member with old | new
      · exact nest y old
      · obtain ⟨z, some, rest⟩ := mem_kidFootprint.mp new
        exact footprint_nested (down.kid (isKid z some)).2.2
          (down.kidOf k .self down.notLoad z (isKid z some)).nested rest
    obtain ⟨keeps1, nest1⟩ := grow (fun y kid => .inl kid) keeps nest first
    obtain ⟨keeps2, nest2⟩ := grow (fun y kid => .inr kid) keeps1 nest1 second
    have relL : Option.Rel Q (leftKid p c.nested (p.info k)) left :=
      evaluateKid_rel (fun y kid => holds y (.inl kid) keeps
        (fun x member => apart x (inside y (.inl kid) member)) nest) first
    have relR : Option.Rel Q (rightKid p c.nested (p.info k)) right := by
      refine evaluateKid_rel (fun y kid => holds y (.inr kid) keeps1 ?_ nest1) second
      intro x member new
      rcases List.mem_append.mp new with old | left
      · exact apart x (inside y (.inr kid) member) old
      · exact disjoint x (by rw [kid, kidFootprint_some]; exact member) left
    refine closed k (self_mem_footprint down) left right c2 t c' relL relR
      ⟨_, keeps2, ?_, nest2⟩ last
    have notKid : ∀ {kid : Option Nat}, (∀ y, kid = some y → IsKid p c.nested k y) →
        k ∉ kidFootprint p c.nested kid := by
      intro kid isKid member
      obtain ⟨y, some, rest⟩ := mem_kidFootprint.mp member
      exact (parts y (isKid y some)).2 rest
    simp only [List.mem_append, not_or]
    exact ⟨⟨apart k (self_mem_footprint down), notKid fun y kid => .inl kid⟩,
      notKid fun y kid => .inr kid⟩

/-- What processing establishes label by label holds for the root. -/
lemma findRoots_rule (down : Descends p c.nested k) (ne : k ≠ 0)
    (nodup : (footprint p c.nested k).Nodup)
    (closed : ∀ x ∈ footprint p c.nested k, Closed p c Q x)
    (h : findRoots p c fuel k = some (t, c')) : Q k t :=
  evaluate_rule down nodup closed (.refl c []) (fun _ _ => List.not_mem_nil)
    (fun _ member => absurd member List.not_mem_nil) (findRoots_evaluate down ne nodup h)

end Traversal

/-- A property of outcomes that every step keeps holds of the last one. -/
lemma walk_rule {p : Parser} {K : Outcome → Prop} (kept : ∀ w, K (.running w) → K (step p w))
    {w : Walk} {fuel : Nat} {t : AstNode} {c' : Caches} (before : K (.running w))
    (h : walk p fuel w = some (t, c')) : K (.finished t c') := by
  induction fuel generalizing w with
  | zero => cases h
  | succ fuel ih =>
    have after := kept w before
    simp only [walk] at h
    split at h
    next w' next =>
      rw [next] at after
      exact ih after h
    next t1 c1 last =>
      cases h
      rw [last] at after
      exact after
    · cases h

end RootWalk
