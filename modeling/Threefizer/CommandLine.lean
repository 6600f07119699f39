/-
# The command line (`main` of `threefizer.c`)

`main` processes the options in the order `getopt_long` delivers them, until
one of them stops it, checks the target file, asks for a password if there is
neither one nor a key file, runs, and frees the password if `free` is set.

`free` is meant to say that the password is allocated. `askPassword` sets both.
But `-P` sets `free` as well, and does not touch the password, so after a `-p`
and a `-P`, in either order, the argument of `-p` is freed. In every other run
what is freed is a null pointer or allocated (`main_frees_own_iff`).
-/
import Threefizer.FileIO
import Threefizer.Password

namespace Threefizer
namespace CommandLine

/-! ### The arguments -/

/-- What `password` points to: nothing, an argument in `argv`, or memory that
`askPassword` has allocated. -/
inductive Pointer
  | NULL
  | argv (optarg : List Byte)
  | allocated (bytes : List Byte)
  deriving DecidableEq, Repr

/-- `arguments`; `iv` is the business of `runThreefizer` alone. -/
structure Arguments where
  key_file : Option Path
  password : Pointer
  rename_file : Option Path
  target_file : Option Path
  file_size : ℕ
  pw_length : ℕ
  state_size : SkeinSize
  encrypt : Bool
  free : Bool
  hash : Bool
  hash_from_file : Bool
  legacy_hash : Bool
  rename : Bool
  threads_active : Bool
  deriving DecidableEq, Repr

def initArguments : Arguments where
  key_file := none
  password := .NULL
  rename_file := none
  target_file := none
  file_size := 0
  pw_length := 0
  state_size := .Skein512
  encrypt := true
  free := false
  hash := true
  hash_from_file := false
  legacy_hash := false
  rename := false
  threads_active := false

def ARG_PARSING_FAIL : ℤ := -1
def INVALID_PASSWORD_FILE : ℤ := -6
def INVALID_TARGET_FILE : ℤ := -7
def PASSWORD_TOO_SHORT : ℤ := -14
def TOO_FEW_ARGUMENTS : ℤ := -17

/-- The names of the block sizes. -/
def block_lookup : List (String × SkeinSize) :=
  [("256", .Skein256), ("512", .Skein512), ("1024", .Skein1024),
    ("SAFE", .Skein256), ("SECURE", .Skein512), ("FUTUREPROOF", .Skein1024),
    ("safe", .Skein256), ("secure", .Skein512), ("futureproof", .Skein1024),
    ("Safe", .Skein256), ("Secure", .Skein512), ("FutureProof", .Skein1024),
    ("FUTURE_PROOF", .Skein1024), ("future_proof", .Skein1024), ("Future_Proof", .Skein1024)]

/-- `getSkeinSize`. -/
def getSkeinSize (key : List Byte) : SkeinSize :=
  ((block_lookup.find? fun sym => sym.1.toUTF8.toList == key).map Prod.snd).getD .Skein512

/-- What `access`, `stat` and `getFileSize` say about a path. -/
structure Files where
  exists_ : Path → Bool
  isFile : Path → Bool
  getFileSize : Path → ℕ

/-! ### The options -/

/-- An option as `getopt_long` delivers it, `unknown` for one that is not in its list. -/
inductive Opt
  | b (optarg : List Byte)
  | d
  | e
  | h
  | n
  | l
  | p (optarg : List Byte)
  | P (optarg : Path)
  | r (optarg : Path)
  | u
  | V
  | unknown
  deriving DecidableEq, Repr

/-- The local variables of `main` while the options are processed. -/
structure Parse where
  arguments : Arguments
  parsing : Bool
  status : ℤ

variable (files : Files)

/-- The `switch` over an option. -/
def parseOption (st : Parse) : Opt → Parse
  | .b optarg => { st with arguments.state_size := getSkeinSize optarg }
  | .d => { st with arguments.encrypt := false }
  | .e => if st.arguments.encrypt = false then { st with parsing := false, status := ARG_PARSING_FAIL } else st
  | .h => { st with parsing := false }
  | .n => { st with arguments.hash := false }
  | .l => { st with arguments.legacy_hash := true }
  | .p optarg =>
    if optarg.length > 6 then
      { st with arguments.password := .argv optarg, arguments.pw_length := optarg.length }
    else { st with parsing := false, status := PASSWORD_TOO_SHORT }
  | .P optarg =>
    if files.exists_ optarg && files.isFile optarg then
      { st with
        arguments.free := true
        arguments.hash_from_file := true
        arguments.key_file := some optarg }
    else { st with parsing := false, status := INVALID_PASSWORD_FILE }
  | .r optarg => { st with arguments.rename := true, arguments.rename_file := some optarg }
  | .u => { st with parsing := false }
  | .V => { st with parsing := false }
  | .unknown => { st with status := ARG_PARSING_FAIL }

/-- The loop over the options. -/
def parseOptions : Parse → List Opt → Parse
  | st, [] => st
  | st, o :: os => if st.parsing then parseOptions (parseOption files st o) os else st

/-- The check of the target file, which is the last argument if any is left
after the options, and whether `mand_arg` is set. -/
def checkTarget (operand : Option Path) (st : Parse) : Parse × Bool :=
  if st.parsing then
    match operand with
    | some target =>
      if files.exists_ target && files.isFile target then
        ({ st with
            arguments.target_file := some target
            arguments.file_size := files.getFileSize target }, true)
      else ({ st with status := INVALID_TARGET_FILE }, false)
    | none => ({ st with status := TOO_FEW_ARGUMENTS }, false)
  else (st, false)

/-! ### `main` -/

/-- A run of `runThreefizer`: its status, and the only argument it leaves
changed that `main` looks at. -/
structure Run where
  status : ℤ
  threads_active : Bool

/-- The arguments after `askPassword`. -/
def answered (args : Arguments) (a : Password.Answer) : Arguments :=
  { args with password := .allocated a.password, free := a.free, pw_length := a.pw_length }

/-- Where `main` ends: the arguments, the status, and what it frees. -/
structure End where
  arguments : Arguments
  status : ℤ
  freed : Option Pointer

/-- The end of `main`. -/
def finish (args : Arguments) (status : ℤ) : End where
  arguments := args
  status := status
  freed := if args.free then some args.password else none

/-- `main`; none when `askPassword` does not return in the rounds given. -/
def main (opts : List Opt) (operand : Option Path) (rounds : List Password.Round) (run : Run) : Option End :=
  let (st, mand_arg) := checkTarget files operand (parseOptions files ⟨initArguments, true, 0⟩ opts)
  if st.status = 0 ∧ mand_arg then
    let args :=
      if st.arguments.hash_from_file = false ∧ st.arguments.password = .NULL then
        (Password.askPassword rounds).result.map (answered st.arguments)
      else some st.arguments
    args.map fun args => finish { args with threads_active := run.threads_active } run.status
  else some (finish st.arguments st.status)

/-- The password is freed only if it is a null pointer or allocated. -/
def FreesOwn (e : End) : Prop :=
  e.arguments.free = true → e.arguments.password = .NULL ∨ ∃ bytes, e.arguments.password = .allocated bytes

/-! ### Which options are processed -/

/-- The option ends the parsing. -/
def Opt.stops (encrypt : Bool) : Opt → Bool
  | .e => !encrypt
  | .h | .u | .V => true
  | .p optarg => !decide (optarg.length > 6)
  | .P optarg => !(files.exists_ optarg && files.isFile optarg)
  | _ => false

/-- What `encrypt` is after the option. -/
def Opt.encryptAfter (encrypt : Bool) : Opt → Bool
  | .d => false
  | _ => encrypt

/-- The options up to the one that ends the parsing. -/
def processed : Bool → List Opt → List Opt
  | _, [] => []
  | encrypt, o :: os => o :: if o.stops files encrypt then [] else processed (o.encryptAfter encrypt) os

/-- The option sets the password. -/
def Opt.givesPassword : Opt → Bool
  | .p optarg => decide (optarg.length > 6)
  | _ => false

/-- The option sets the key file. -/
def Opt.givesKeyFile : Opt → Bool
  | .P optarg => files.exists_ optarg && files.isFile optarg
  | _ => false

/-- Both a password and a key file are given. -/
def BothGiven (opts : List Opt) : Prop :=
  (∃ o ∈ processed files true opts, o.givesPassword = true) ∧
    ∃ o ∈ processed files true opts, o.givesKeyFile files = true

/-! ### What the options leave -/

/-- What `main` knows of the ownership before it asks for a password: `password`
is a null pointer unless a processed option gives it, and then it points into
`argv`; `free` is set with the key file. -/
structure Owned (given keyed : Bool) (args : Arguments) : Prop where
  null : given = false → args.password = .NULL
  argv : given = true → ∃ optarg, args.password = .argv optarg
  free : args.free = keyed
  file : args.hash_from_file = keyed

theorem owned_initArguments : Owned false false initArguments where
  null := fun _ => rfl
  argv := fun h => by cases h
  free := rfl
  file := rfl

variable {files} {given keyed : Bool} {st : Parse}

/-- One option. -/
theorem Owned.parseOption (h : Owned given keyed st.arguments) (hst : st.parsing = true) (o : Opt) :
    Owned (given || o.givesPassword) (keyed || o.givesKeyFile files) (parseOption files st o).arguments ∧
      (CommandLine.parseOption files st o).parsing = !o.stops files st.arguments.encrypt ∧
      (CommandLine.parseOption files st o).arguments.encrypt = o.encryptAfter st.arguments.encrypt := by
  cases o with
  | p optarg =>
    by_cases hlen : optarg.length > 6
    · simp only [CommandLine.parseOption, if_pos hlen, Opt.givesPassword, Opt.givesKeyFile, Opt.stops,
        Opt.encryptAfter, decide_eq_true hlen, Bool.or_true, Bool.or_false, Bool.not_true, Bool.not_false]
      exact ⟨⟨fun h => (by cases h), fun _ => ⟨optarg, rfl⟩, h.free, h.file⟩, hst, trivial⟩
    · simp only [CommandLine.parseOption, if_neg hlen, Opt.givesPassword, Opt.givesKeyFile, Opt.stops,
        Opt.encryptAfter, decide_eq_false hlen, Bool.or_false, Bool.not_false, Bool.not_true]
      exact ⟨h, trivial, trivial⟩
  | P optarg =>
    cases hfile : files.exists_ optarg && files.isFile optarg with
    | true =>
      simp only [CommandLine.parseOption, hfile, if_true, Opt.givesPassword, Opt.givesKeyFile, Opt.stops,
        Opt.encryptAfter, Bool.or_true, Bool.or_false, Bool.not_true, Bool.not_false]
      exact ⟨⟨h.null, h.argv, rfl, rfl⟩, hst, trivial⟩
    | false =>
      simp only [CommandLine.parseOption, hfile, Bool.false_eq_true, if_false, Opt.givesPassword, Opt.givesKeyFile,
        Opt.stops, Opt.encryptAfter, Bool.or_false, Bool.not_false, Bool.not_true]
      exact ⟨h, trivial, trivial⟩
  | e =>
    cases hencrypt : st.arguments.encrypt with
    | true =>
      simp only [CommandLine.parseOption, hencrypt, Bool.true_eq_false, if_false, Opt.givesPassword,
        Opt.givesKeyFile,
        Opt.stops, Opt.encryptAfter, Bool.or_false, Bool.not_true, Bool.not_false]
      exact ⟨h, hst, trivial⟩
    | false =>
      simp only [CommandLine.parseOption, hencrypt, if_true, Opt.givesPassword, Opt.givesKeyFile, Opt.stops,
        Opt.encryptAfter, Bool.or_false, Bool.not_false, Bool.not_true]
      exact ⟨h, trivial, trivial⟩
  | h | u | V =>
    simp only [CommandLine.parseOption, Opt.givesPassword, Opt.givesKeyFile, Opt.stops, Opt.encryptAfter,
      Bool.or_false, Bool.not_true]
    exact ⟨h, trivial, trivial⟩
  | b | d | n | l | r | unknown =>
    simp only [CommandLine.parseOption, Opt.givesPassword, Opt.givesKeyFile, Opt.stops, Opt.encryptAfter,
      Bool.or_false, Bool.not_false]
    exact ⟨⟨h.null, h.argv, h.free, h.file⟩, hst, trivial⟩

/-- All options. -/
theorem Owned.parseOptions : ∀ (os : List Opt) {given keyed : Bool} {st : Parse}, Owned given keyed st.arguments →
    st.parsing = true →
    Owned (given || (processed files st.arguments.encrypt os).any Opt.givesPassword)
      (keyed || (processed files st.arguments.encrypt os).any (Opt.givesKeyFile files))
      (parseOptions files st os).arguments
  | [], given, keyed, st, h, _ => by simpa [processed, CommandLine.parseOptions] using h
  | o :: os, given, keyed, st, h, hst => by
    obtain ⟨hO, hparsing, hencrypt⟩ := @Owned.parseOption files given keyed st h hst o
    rw [CommandLine.parseOptions, if_pos hst, processed, List.any_cons, List.any_cons, ← Bool.or_assoc,
      ← Bool.or_assoc]
    cases hstop : o.stops files st.arguments.encrypt with
    | true =>
      -- the loop leaves before the next option
      rw [hstop] at hparsing
      have hleft : CommandLine.parseOptions files (CommandLine.parseOption files st o) os =
          CommandLine.parseOption files st o := by
        cases os with
        | nil => rfl
        | cons o' os => rw [CommandLine.parseOptions, hparsing]; rfl
      rw [hleft, if_pos rfl, List.any_nil, List.any_nil, Bool.or_false, Bool.or_false]
      exact hO
    | false =>
      rw [hstop] at hparsing
      rw [if_neg Bool.false_ne_true, ← hencrypt]
      exact hO.parseOptions os hparsing

/-- The check of the target file leaves the password alone. -/
theorem Owned.checkTarget {operand : Option Path} (h : Owned given keyed st.arguments) :
    Owned given keyed (checkTarget files operand st).1.arguments := by
  unfold CommandLine.checkTarget
  split
  · split
    · split
      · exact ⟨h.null, h.argv, h.free, h.file⟩
      · exact h
    · exact h
  · exact h

/-- Before `main` asks for a password the options decide who owns it. -/
theorem owned_options (files : Files) (opts : List Opt) (operand : Option Path) :
    Owned ((processed files true opts).any Opt.givesPassword)
      ((processed files true opts).any (Opt.givesKeyFile files))
      (checkTarget files operand (parseOptions files ⟨initArguments, true, 0⟩ opts)).1.arguments := by
  have h := @Owned.parseOptions files opts false false ⟨initArguments, true, 0⟩ owned_initArguments rfl
  rw [Bool.false_or, Bool.false_or] at h
  exact h.checkTarget

/-- At the end of `main` the password is the one the options have left, or it is
allocated and there is no key file. -/
theorem owned_main {opts : List Opt} {operand : Option Path} {rounds : List Password.Round} {run : Run} {e : End}
    (h : main files opts operand rounds run = some e) :
    Owned ((processed files true opts).any Opt.givesPassword)
        ((processed files true opts).any (Opt.givesKeyFile files)) e.arguments ∨
      (processed files true opts).any (Opt.givesKeyFile files) = false ∧
        ∃ bytes, e.arguments.password = .allocated bytes := by
  have hO := owned_options files opts operand
  simp only [main] at h
  split at h
  · obtain ⟨args, hargs, rfl⟩ := Option.map_eq_some_iff.mp h
    split at hargs
    · next hask =>
      obtain ⟨a, -, rfl⟩ := Option.map_eq_some_iff.mp hargs
      exact Or.inr ⟨hO.file.symm.trans hask.1, a.password, rfl⟩
    · cases hargs
      exact Or.inl ⟨hO.null, hO.argv, hO.free, hO.file⟩
  · cases h
    exact Or.inl hO

theorem bothGiven_iff {opts : List Opt} : BothGiven files opts ↔
    (processed files true opts).any Opt.givesPassword = true ∧
      (processed files true opts).any (Opt.givesKeyFile files) = true := by
  rw [BothGiven, List.any_eq_true, List.any_eq_true]

/-- **What `main` frees is its own exactly if not both a password and a key file
are given** by the options it processes. -/
theorem main_frees_own_iff (files : Files) (opts : List Opt) (operand : Option Path)
    (rounds : List Password.Round) (run : Run) (e : End) (h : main files opts operand rounds run = some e) :
    FreesOwn e ↔ ¬ BothGiven files opts := by
  rw [bothGiven_iff]
  rcases owned_main h with hO | ⟨hkeyed, bytes, hbytes⟩
  · constructor
    · rintro hown ⟨hgiven, hkeyed⟩
      obtain ⟨optarg, hargv⟩ := hO.argv hgiven
      rcases hown (hO.free.trans hkeyed) with hnull | ⟨bytes, hbytes⟩
      · cases hargv.symm.trans hnull
      · cases hargv.symm.trans hbytes
    · intro hboth hfree
      have hkeyed := hO.free.symm.trans hfree
      exact Or.inl (hO.null (Bool.eq_false_iff.mpr fun hgiven => hboth ⟨hgiven, hkeyed⟩))
  · refine iff_of_true (fun _ => Or.inr ⟨bytes, hbytes⟩) fun hboth => ?_
    rw [hkeyed] at hboth
    exact Bool.false_ne_true hboth.2

/-- A file system in which every path is a regular file of three bytes. -/
def sampleFiles : Files := ⟨fun _ => true, fun _ => true, fun _ => 3⟩

/-- `-d -p hunter2 file`. -/
theorem main_frees_own_sample : ∃ e,
    main sampleFiles [.d, .p [104, 117, 110, 116, 101, 114, 50]] (some [102]) [] ⟨0, true⟩ = some e ∧
      FreesOwn e := by
  refine ⟨_, rfl, (main_frees_own_iff sampleFiles [.d, .p [104, 117, 110, 116, 101, 114, 50]] (some [102]) []
    ⟨0, true⟩ _ rfl).mpr ?_⟩
  rw [bothGiven_iff]
  decide

/-- `-p hunter2 -P key file` frees the argument of `-p`. -/
theorem password_and_key_file_frees_argv : ∃ e,
    main sampleFiles [.p [104, 117, 110, 116, 101, 114, 50], .P [107]] (some [102]) [] ⟨0, true⟩ = some e ∧
      e.freed = some (.argv [104, 117, 110, 116, 101, 114, 50]) ∧ ¬ FreesOwn e := by
  refine ⟨_, rfl, rfl, fun h => ?_⟩
  rcases h rfl with hnull | ⟨bytes, hbytes⟩
  · cases hnull
  · cases hbytes

end CommandLine
end Threefizer
