import SymSan.LabelTable

/-!
# The descriptor of the taint file

The runtime keeps one descriptor for the taint file. `taint_set_file` replaces it when a
file with the name of the taint file has been opened, `taint_close_file` takes it back, and
`taint_get_file` tells the wrappers of the read functions whether a descriptor is a source
of input bytes. The target runs over a table of open descriptors, where every successful
open takes an unused number. The path that `realpath` leaves in its buffer is part of a
call; of the descriptor's fields only those that these functions read are modelled.

Opening the taint file again replaces the record of the first descriptor. From the moment
on when the record has been set, it is the descriptor of the last open.
-/

namespace TaintSources

open Function (update update_of_ne)

/-! ## The record -/

structure TaintFile where
  filename : String
  fd : Int
  size : Nat
  isStdin : Bool
  deriving DecidableEq, Repr

/-- The option `taint_file`, with what the system tells about the file. -/
inductive TaintFlag where
  /-- `stdin`; the size if it is a regular file. -/
  | stdin (regular : Option Nat)
  | empty
  /-- A file, by its real path, and its size. -/
  | path (real : String) (size : Nat)
  /-- A file for which `realpath` fails, which leaves something in the buffer. -/
  | unresolved (left : String)
  deriving DecidableEq, Repr

structure Options where
  taintFile : TaintFlag
  forceStdin : Bool

/-- The record before `InitializeTaintFile`, a global. -/
def zeroed : TaintFile := ⟨"", 0, 0, false⟩

def initializeTaintFile : TaintFlag → TaintFile
  | .stdin (some size) => { zeroed with fd := 0, size := size, isStdin := false }
  | .stdin none => { zeroed with fd := 0, size := 1, isStdin := true }
  | .empty => { zeroed with fd := -1 }
  | .path real size => { zeroed with filename := real, size := size, isStdin := false }
  | .unresolved left => { zeroed with filename := left }

/-- The directory of `openat`, if it is not the current one: whether `readlinkat` succeeds
on the name, and what `realpath` makes of the name from the current directory. -/
structure Directory where
  link : Bool
  real : String

def taintSetFile (t : TaintFile) (dir : Option Directory) (path : String) (fd : Int) : TaintFile :=
  match dir with
  | none => if t.filename = path then { t with fd := fd } else t
  | some d =>
    if d.link then if t.filename = d.real then { t with fd := fd } else t
    else t

variable (o : Options)

def taintGetFile (t : TaintFile) (fd : Int) : Nat :=
  if t.fd = fd then t.size
  else if o.forceStdin ∧ fd = 0 then t.size
  else 0

def taintCloseFile (t : TaintFile) (fd : Int) : TaintFile :=
  if fd = t.fd then { t with fd := -1 } else t

/-! ## The wrappers -/

/-- A descriptor as the C function returns it. -/
def returned : Option Nat → Int
  | some fd => fd
  | none => -1

/-- `__dfsw_openat`; `__dfsw_open` passes the current directory. -/
def dfswOpenat (t : TaintFile) (dir : Option Directory) (path : String) (result : Option Nat) :
    TaintFile :=
  if returned result ≠ 0 then taintSetFile t dir path (returned result) else t

def dfswOpen (t : TaintFile) (path : String) (result : Option Nat) : TaintFile :=
  dfswOpenat t none path result

def dfswFopen (t : TaintFile) (path : String) (result : Option Nat) : TaintFile :=
  match result with
  | some fd => taintSetFile t none path fd
  | none => t

def dfswClose (t : TaintFile) (fd : Nat) : TaintFile := taintCloseFile t fd

def dfswFclose (t : TaintFile) (fd : Nat) (ok : Bool) : TaintFile :=
  if ok then taintCloseFile t fd else t

/-! ## The target -/

/-- What a descriptor is open on. -/
inductive Target where
  | stdin
  | other
  | file (real : String)
  deriving DecidableEq, Repr

structure Process where
  tainted : TaintFile
  opened : Nat → Option Target

inductive Opener where
  | open
  | openat (dir : Option Directory)
  | fopen

/-- A call with what the system makes of it. The path of an open is the real path of the
file, or what `realpath` leaves in its buffer if the open fails. -/
inductive Call where
  | opens (how : Opener) (path : String) (result : Option Nat)
  | close (fd : Nat)
  | fclose (fd : Nat) (ok : Bool)

/-- The kernel returns an unused number. -/
def Call.Possible (p : Process) : Call → Prop
  | .opens _ path (some fd) => path ≠ "" ∧ p.opened fd = none
  | _ => True

/-- The descriptors after a call; `fclose` releases the descriptor even if it fails. -/
def Call.descriptors (opened : Nat → Option Target) : Call → Nat → Option Target
  | .opens _ path (some fd) => update opened fd (some (.file path))
  | .opens _ _ none => opened
  | .close fd => update opened fd none
  | .fclose fd _ => update opened fd none

def Call.wrap (t : TaintFile) : Call → TaintFile
  | .opens .open path result => dfswOpen t path result
  | .opens (.openat dir) path result => dfswOpenat t dir path result
  | .opens .fopen path result => dfswFopen t path result
  | .close fd => dfswClose t fd
  | .fclose fd ok => dfswFclose t fd ok

def Call.exec (p : Process) (c : Call) : Process := ⟨c.wrap p.tainted, c.descriptors p.opened⟩

/-- Standard input is open, and the descriptors the target inherits. -/
def start (inherited : Nat → Bool) : Process :=
  ⟨initializeTaintFile o.taintFile, fun fd =>
    if fd = 0 then some .stdin else if inherited fd then some .other else none⟩

def run (p : Process) (calls : List Call) : Process := calls.foldl Call.exec p

/-- Every call is possible and satisfies `P` where it is made. -/
def Throughout (P : Process → Call → Prop) : Process → List Call → Prop
  | _, [] => True
  | p, c :: calls => c.Possible p ∧ P p c ∧ Throughout P (c.exec p) calls

/-- Whether standard input is the taint file. -/
def stdinFlag : TaintFlag → Bool
  | .stdin _ => true
  | _ => false

/-- A source of input bytes: a descriptor on the taint file, or standard input if it is
tainted. -/
def IsSource (p : Process) (fd : Nat) : Prop :=
  (∃ real size, o.taintFile = .path real size ∧ p.opened fd = some (.file real)) ∨
    (p.opened fd = some .stdin ∧ (stdinFlag o.taintFile = true ∨ o.forceStdin = true))

/-! ## The last open -/

/-- The descriptor of the last open of a file, until it is closed. -/
def Call.latest (real : String) (l : Option Nat) : Call → Option Nat
  | .opens _ path (some fd) => if path = real then some fd else l
  | .opens _ _ none => l
  | .close fd => if l = some fd then none else l
  | .fclose fd _ => if l = some fd then none else l

def latest (real : String) (calls : List Call) : Option Nat := calls.foldl (Call.latest real) none

/-- The call sets the record or takes the descriptor 0 out of it. -/
def Call.settles (real : String) : Call → Bool
  | .opens _ path (some _) => path = real
  | .opens _ _ none => false
  | .close fd => fd = 0
  | .fclose fd _ => fd = 0

/-- A taint file other than standard input. -/
def fileName : TaintFlag → Option String
  | .path real _ => some real
  | .unresolved left => some left
  | _ => none

/-- The record starts as descriptor 0, which is meant if standard input is tainted. For a
named file it has to be replaced first. -/
def Settled (calls : List Call) : Prop :=
  ∀ real, fileName o.taintFile = some real → o.forceStdin = true ∨ calls.any (·.settles real) = true

/-- `open` and `openat` take the descriptor 0 for a failure and -1 for a success. -/
def Kept (real path : String) (result : Option Nat) : Prop :=
  path = real → ∃ fd, result = some fd ∧ fd ≠ 0

/-- Opens of the taint file that `taint_set_file` gets right, and no `fclose` that fails
on the descriptor. -/
def Ordinary (p : Process) : Call → Prop
  | .opens .open path result => Kept p.tainted.filename path result
  | .opens (.openat none) path result => Kept p.tainted.filename path result
  | .opens (.openat (some d)) path result =>
    path = p.tainted.filename ∨ (d.link = true ∧ d.real = p.tainted.filename) →
      d.link = true ∧ d.real = path ∧ Kept p.tainted.filename path result
  | .opens .fopen _ _ => True
  | .close _ => True
  | .fclose fd ok => ok = true ∨ p.tainted.fd ≠ fd

/-- What the runtime reports: the descriptor of the last open, descriptor 0 if tainting
standard input is forced, and standard input if it is the taint file. -/
def Reported (p : Process) (l : Option Nat) (fd : Nat) : Prop :=
  l = some fd ∨ (o.forceStdin = true ∧ fd = 0) ∨
    (stdinFlag o.taintFile = true ∧ p.opened fd = some .stdin)

/-- What an ordinary call does: to the process, to the last open of the taint file, and
whether the record is settled by it. -/
inductive Effect (p : Process) (l : Option Nat) : Process → Option Nat → Bool → Prop where
  | idle : Effect p l p l false
  | elsewhere {fd : Nat} {path : String} (free : p.opened fd = none)
      (other : path ≠ p.tainted.filename) :
      Effect p l ⟨p.tainted, update p.opened fd (some (.file path))⟩ l false
  | records {fd : Nat} (free : p.opened fd = none) (named : p.tainted.filename ≠ "") :
      Effect p l ⟨{ p.tainted with fd := fd },
        update p.opened fd (some (.file p.tainted.filename))⟩ (some fd) true
  | closes (fd : Nat) :
      Effect p l ⟨taintCloseFile p.tainted fd, update p.opened fd none⟩
        (if l = some fd then none else l) (decide (fd = 0))

section Effect

variable {p : Process} {l : Option Nat} {result : Option Nat}

/-- `fopen` checks its result: the wrapper records a descriptor on the taint file, and
nothing else. -/
lemma effect_opens {how : Opener} {path : String}
    (possible : (Call.opens how path result).Possible p)
    (wrapped : (Call.opens how path result).wrap p.tainted = dfswFopen p.tainted path result) :
    Effect p l ((Call.opens how path result).exec p)
      ((Call.opens how path result).latest p.tainted.filename l)
      ((Call.opens how path result).settles p.tainted.filename) := by
  rw [Call.exec, wrapped]
  cases result with
  | none => exact .idle
  | some fd =>
    obtain ⟨named, free⟩ := possible
    by_cases same : p.tainted.filename = path
    · subst same
      simpa [dfswFopen, taintSetFile, Call.latest, Call.settles, Call.descriptors]
        using .records free named
    · have other : path ≠ p.tainted.filename := fun h => same h.symm
      simpa [dfswFopen, taintSetFile, Call.latest, Call.settles, Call.descriptors, same, other]
        using .elsewhere free other

lemma dfswOpenat_kept {t : TaintFile} {path : String} (kept : Kept t.filename path result) :
    dfswOpenat t none path result = dfswFopen t path result := by
  by_cases same : path = t.filename
  · obtain ⟨fd, rfl, ne⟩ := kept same
    have success : returned (some fd) ≠ 0 := by
      simpa [returned] using ne
    rw [dfswOpenat, if_pos success]
    rfl
  · have other : ¬t.filename = path := fun h => same h.symm
    cases result with
    | none | some fd => simp [dfswOpenat, dfswFopen, taintSetFile, other]

lemma Call.effect {c : Call} (possible : c.Possible p) (ordinary : Ordinary p c) :
    Effect p l (c.exec p) (c.latest p.tainted.filename l) (c.settles p.tainted.filename) := by
  cases c with
  | opens how path result =>
    apply effect_opens possible
    cases how with
    | «open» => exact dfswOpenat_kept ordinary
    | openat dir =>
      rcases dir with _ | d
      · exact dfswOpenat_kept ordinary
      by_cases touched : path = p.tainted.filename ∨ (d.link = true ∧ d.real = p.tainted.filename)
      · obtain ⟨link, same, kept⟩ := ordinary touched
        rw [← dfswOpenat_kept kept]
        simp [Call.wrap, dfswOpenat, taintSetFile, link, same]
      have elsewhere : p.tainted.filename ≠ path := fun same => touched (.inl same.symm)
      have away : dfswOpenat p.tainted (some d) path result = p.tainted := by
        cases link : d.link with
        | false => simp [dfswOpenat, taintSetFile, link]
        | true =>
          have other : p.tainted.filename ≠ d.real := fun same => touched (.inr ⟨link, same.symm⟩)
          simp [dfswOpenat, taintSetFile, other]
      rw [Call.wrap, away]
      cases result with
      | none => rfl
      | some fd => exact (if_neg elsewhere).symm
    | fopen => rfl
  | close fd => exact .closes fd
  | fclose fd ok =>
    have closed : dfswFclose p.tainted fd ok = taintCloseFile p.tainted fd := by
      rcases ordinary with rfl | apart
      · rfl
      · cases ok with
        | true => rfl
        | false =>
          rw [dfswFclose, if_neg (by decide), taintCloseFile, if_neg (Ne.symm apart)]
    have here := Effect.closes (p := p) (l := l) fd
    rw [← closed] at here
    exact here

end Effect

/-- The record against the last open. -/
structure Tracks (settled : Prop) (p : Process) (l : Option Nat) : Prop where
  file : p.tainted.filename = (initializeTaintFile o.taintFile).filename
  size : p.tainted.size = (initializeTaintFile o.taintFile).size
  opened : ∀ fd, l = some fd → p.opened fd = some (.file p.tainted.filename)
  standard : stdinFlag o.taintFile = true → l = none ∧ ∀ fd : Nat,
    p.tainted.fd = fd ↔ p.opened fd = some .stdin
  named : stdinFlag o.taintFile = false → settled → ∀ fd : Nat,
    (o.forceStdin = true ∧ fd = 0) ∨ (p.tainted.fd = fd ↔ l = some fd)
  unsettled : stdinFlag o.taintFile = false → settled ∨ (p.tainted.fd = 0 ∧ l = none)

section Tracks

variable {o : Options} {settled : Prop} {p p' : Process} {l l' : Option Nat} {b : Bool}

lemma stdin_unnamed (flag : stdinFlag o.taintFile = true) :
    (initializeTaintFile o.taintFile).filename = "" := by
  cases same : o.taintFile with
  | stdin regular => cases regular <;> rfl
  | empty | path | unresolved =>
    rw [same] at flag
    cases flag

lemma fileName_initial {flag : TaintFlag} {name : String} (named : fileName flag = some name) :
    (initializeTaintFile flag).filename = name := by
  cases flag with
  | stdin | empty => cases named
  | path | unresolved =>
    cases named
    rfl

lemma taintCloseFile_fd (t : TaintFile) (fd x : Nat) :
    (taintCloseFile t fd).fd = x ↔ t.fd = x ∧ x ≠ fd := by
  simp only [taintCloseFile]
  split
  · simp only
    omega
  · omega

lemma taintCloseFile_frame (t : TaintFile) (fd : Int) :
    (taintCloseFile t fd).filename = t.filename ∧ (taintCloseFile t fd).size = t.size := by
  simp only [taintCloseFile]
  split
  · exact ⟨rfl, rfl⟩
  · exact ⟨rfl, rfl⟩

lemma forget_eq (fd x : Nat) : (if l = some fd then none else l) = some x ↔
    l = some x ∧ x ≠ fd := by
  split
  next same =>
    rw [same]
    simp only [reduceCtorEq, Option.some.injEq, false_iff, not_and, not_not]
    exact fun h => h.symm
  next other =>
    constructor
    · rintro rfl
      exact ⟨rfl, fun same => other (congrArg some same)⟩
    · exact fun h => h.1

section

variable (tracks : Tracks o settled p l)

include tracks

lemma Tracks.elsewhere {fd : Nat} {path : String} (free : p.opened fd = none) :
    Tracks o settled ⟨p.tainted, update p.opened fd (some (.file path))⟩ l := by
  refine ⟨tracks.file, tracks.size, ?_, ?_, tracks.named, tracks.unsettled⟩
  · intro x known
    have here := tracks.opened x known
    have ne : x ≠ fd := by
      rintro rfl
      rw [free] at here
      cases here
    dsimp only
    rw [update_of_ne ne]
    exact here
  · intro flag
    obtain ⟨none, same⟩ := tracks.standard flag
    refine ⟨none, fun x => ?_⟩
    dsimp only
    by_cases here : x = fd
    · subst here
      rw [same x, free]
      simp
    · rw [update_of_ne here]
      exact same x

lemma Tracks.records {fd : Nat} (named : p.tainted.filename ≠ "") :
    Tracks o True ⟨{ p.tainted with fd := fd },
      update p.opened fd (some (.file p.tainted.filename))⟩ (some fd) := by
  refine ⟨tracks.file, tracks.size, ?_, ?_, ?_, fun _ => .inl trivial⟩
  · rintro x ⟨⟩
    exact Function.update_self _ _ _
  · intro flag
    rw [tracks.file] at named
    exact absurd (stdin_unnamed flag) named
  · intro _ _ x
    dsimp only
    rw [Option.some.injEq]
    omega

lemma Tracks.closes (fd : Nat) :
    Tracks o (settled ∨ fd = 0) ⟨taintCloseFile p.tainted fd, update p.opened fd none⟩
      (if l = some fd then none else l) := by
  obtain ⟨file, size⟩ := taintCloseFile_frame p.tainted fd
  refine ⟨file.trans tracks.file, size.trans tracks.size, ?_, ?_, ?_, ?_⟩
  · intro x known
    obtain ⟨before, ne⟩ := (forget_eq fd x).mp known
    dsimp only
    rw [update_of_ne ne, file]
    exact tracks.opened x before
  · intro flag
    obtain ⟨rfl, same⟩ := tracks.standard flag
    refine ⟨ite_self _, fun x => ?_⟩
    dsimp only
    rw [taintCloseFile_fd, same x]
    by_cases here : x = fd
    · subst here
      simp
    · rw [update_of_ne here]
      exact and_iff_left here
  · intro flag before x
    rw [taintCloseFile_fd, forget_eq]
    rcases tracks.unsettled flag with done | ⟨zero, rfl⟩
    · rcases tracks.named flag done x with forced | same
      · exact .inl forced
      · exact .inr (and_congr_left' same)
    rcases before with done | rfl
    · rcases tracks.named flag done x with forced | same
      · exact .inl forced
      · exact .inr (and_congr_left' same)
    · right
      simp only [reduceCtorEq, false_and, iff_false]
      omega
  · intro flag
    rcases tracks.unsettled flag with done | ⟨zero, rfl⟩
    · exact .inl (.inl done)
    by_cases here : fd = 0
    · exact .inl (.inr here)
    · refine .inr ⟨?_, ite_self _⟩
      have same := (taintCloseFile_fd p.tainted fd 0).mpr ⟨zero, fun h => here h.symm⟩
      exact same

lemma Tracks.weaken {settled' : Prop} (same : settled ↔ settled') : Tracks o settled' p l :=
  ⟨tracks.file, tracks.size, tracks.opened, tracks.standard,
    fun flag done => tracks.named flag (same.mpr done),
    fun flag => (tracks.unsettled flag).imp_left same.mp⟩

lemma Tracks.step (effect : Effect p l p' l' b) : Tracks o (settled ∨ b = true) p' l' := by
  cases effect with
  | idle => exact tracks.weaken (by simp)
  | elsewhere free other => exact (tracks.elsewhere free).weaken (by simp)
  | records free named => exact (tracks.records named).weaken (by simp)
  | closes fd => exact (tracks.closes fd).weaken (by simp)

end

lemma start_tracks (o : Options) (inherited : Nat → Bool) :
    Tracks o (Settled o []) (start o inherited) none := by
  refine ⟨rfl, rfl, nofun, ?_, ?_, ?_⟩
  · intro flag
    refine ⟨rfl, fun fd => ?_⟩
    cases same : o.taintFile with
    | stdin regular =>
      have zero : (initializeTaintFile (.stdin regular)).fd = 0 := by cases regular <;> rfl
      simp only [start, same, zero]
      by_cases here : fd = 0
      · subst here
        simp
      rw [if_neg here]
      constructor
      · intro h
        omega
      · intro h
        split at h
        · cases h
        · cases h
    | empty | path | unresolved =>
      rw [same] at flag
      cases flag
  · intro flag done fd
    -- with a name, only the forced standard input is settled
    have zero : ∀ real, fileName o.taintFile = some real →
        (initializeTaintFile o.taintFile).fd = 0 →
        (o.forceStdin = true ∧ fd = 0) ∨
          ((initializeTaintFile o.taintFile).fd = fd ↔ none = some fd) := by
      intro real named zero
      have forced : o.forceStdin = true := by simpa using done real named
      by_cases here : fd = 0
      · exact .inl ⟨forced, here⟩
      · right
        simp only [reduceCtorEq, iff_false]
        omega
    cases same : o.taintFile with
    | stdin regular =>
      rw [same] at flag
      cases flag
    | empty =>
      simp [start, same, initializeTaintFile]
    | path real size => exact zero real (by rw [same]; rfl) (by rw [same]; rfl)
    | unresolved left => exact zero left (by rw [same]; rfl) (by rw [same]; rfl)
  · intro flag
    cases same : o.taintFile with
    | stdin regular =>
      rw [same] at flag
      cases flag
    | empty =>
      left
      intro real named
      rw [same] at named
      cases named
    | path real size | unresolved left =>
      right
      simp [start, same, initializeTaintFile, zeroed]

lemma run_tracks (calls : List Call) (tracks : Tracks o settled p l)
    (all : Throughout Ordinary p calls) :
    Tracks o (settled ∨ calls.any (·.settles p.tainted.filename) = true) (run p calls)
      (calls.foldl (Call.latest p.tainted.filename) l) := by
  induction calls generalizing p l settled with
  | nil => exact tracks.weaken (by simp)
  | cons c calls ih =>
    obtain ⟨possible, ordinary, rest⟩ := all
    have next := tracks.step (c.effect possible ordinary)
    have later := ih next rest
    rw [next.file.trans tracks.file.symm] at later
    exact later.weaken (by simp [or_assoc])

end Tracks

/-- A file that is not empty is reported on the recorded descriptor, and on standard input
if that is forced. -/
lemma taintGetFile_ne_zero {o : Options} {t : TaintFile} {fd : Nat} (size : t.size ≠ 0) :
    taintGetFile o t fd ≠ 0 ↔ t.fd = fd ∨ (o.forceStdin = true ∧ fd = 0) := by
  simp only [taintGetFile]
  split
  next same =>
    simp [same, size]
  rename_i other
  split
  next forced =>
    simp [size, forced.1, Int.natCast_eq_zero.mp forced.2]
  next free =>
    simp only [Int.natCast_eq_zero] at free
    simp [other, free]

/-- Either no call has to set the record, or one of them did. -/
lemma Settled.cases {o : Options} {calls : List Call} (settled : Settled o calls) :
    Settled o [] ∨ calls.any (·.settles (initializeTaintFile o.taintFile).filename) = true := by
  cases named : fileName o.taintFile with
  | none =>
    left
    intro name known
    rw [named] at known
    cases known
  | some name =>
    rcases settled name named with forced | set
    · exact .inl fun _ _ => .inl forced
    · right
      rw [← fileName_initial named] at set
      exact set

/-- From the moment on when the record has been set, the runtime reports the descriptor of
the last open of the taint file until it is closed, and standard input if it is tainted. -/
theorem taintGetFile_reports_last_open (o : Options) (inherited : Nat → Bool)
    (calls : List Call) (sized : (initializeTaintFile o.taintFile).size ≠ 0)
    (ordinary : Throughout Ordinary (start o inherited) calls) (settled : Settled o calls) :
    let real := (initializeTaintFile o.taintFile).filename
    let p := run (start o inherited) calls
    (∀ fd, latest real calls = some fd → p.opened fd = some (.file real)) ∧
      ∀ fd : Nat, taintGetFile o p.tainted fd ≠ 0 ↔ Reported o p (latest real calls) fd := by
  intro real p
  have tracks := run_tracks calls (start_tracks o inherited) ordinary
  have file := tracks.file
  constructor
  · intro fd known
    have here := tracks.opened fd known
    rw [file] at here
    exact here
  intro fd
  have size : p.tainted.size ≠ 0 := by
    rw [tracks.size]
    exact sized
  rw [taintGetFile_ne_zero size, Reported]
  cases flag : stdinFlag o.taintFile with
  | true =>
    obtain ⟨none, same⟩ := tracks.standard flag
    have empty : latest real calls = Option.none := none
    rw [same fd, empty]
    simp only [reduceCtorEq, false_or, true_and]
    exact or_comm
  | false =>
    simp only [Bool.false_eq_true, false_and, or_false]
    rcases tracks.named flag settled.cases fd with forced | same
    · simp [forced]
    · rw [same]
      rfl

/-- The taint file is closed and opened again, with another file in between. -/
theorem taintGetFile_reports_last_open_again : let o : Options := ⟨.path "/in" 4, false⟩
    let calls : List Call := [.opens .open "/in" (some 3), .close 3, .opens .fopen "/log" (some 3),
      .opens .fopen "/in" (some 4)]
    let p := run (start o fun fd => fd = 1 ∨ fd = 2) calls
    p.opened 4 = some (.file "/in") ∧ taintGetFile o p.tainted 4 ≠ 0 ∧
      taintGetFile o p.tainted 3 = 0 := by
  intro o calls p
  have ordinary : Throughout Ordinary (start o fun fd => fd = 1 ∨ fd = 2) calls := by
    refine ⟨⟨by decide, rfl⟩, fun _ => ⟨3, rfl, by decide⟩, trivial, trivial,
      ⟨by decide, rfl⟩, trivial, ⟨by decide, rfl⟩, trivial, trivial⟩
  have settled : Settled o calls := by
    rintro _ ⟨⟩
    decide
  have reports := taintGetFile_reports_last_open o _ calls (by decide) ordinary settled
  obtain ⟨opened, reported⟩ := reports
  refine ⟨opened 4 (by decide), (reported 4).mpr (.inl (by decide)), ?_⟩
  by_contra other
  rcases (reported 3).mp other with last | ⟨forced, -⟩ | ⟨flag, -⟩
  · exact absurd last (by decide)
  · cases forced
  · cases flag

/-- The taint file is opened twice: its first descriptor is not reported any more. -/
theorem second_open_replaces_first : let o : Options := ⟨.path "/in" 4, false⟩
    let calls : List Call := [.opens .open "/in" (some 3), .opens .open "/in" (some 4)]
    let p := run (start o fun fd => fd = 1 ∨ fd = 2) calls
    Throughout (fun _ _ => True) (start o fun fd => fd = 1 ∨ fd = 2) calls ∧
      IsSource o p 3 ∧ taintGetFile o p.tainted 3 = 0 ∧ taintGetFile o p.tainted 4 = 4 := by
  refine ⟨⟨⟨by decide, rfl⟩, trivial, ⟨by decide, rfl⟩, trivial, trivial⟩, ?_, by decide, by decide⟩
  exact .inl ⟨"/in", 4, rfl, rfl⟩

end TaintSources
