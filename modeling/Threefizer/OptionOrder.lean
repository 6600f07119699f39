/-
# The order of the options (`main` of `threefizer.c`)

`main` processes the options one after the other, and each of them sets fields
of its own; only `-e` looks at what `-d` has done. So what `runThreefizer` is
called with depends on the order between options of one kind alone, `-d` and
`-e` counted as one (`options_any_order`). Which error is reported when
`runThreefizer` is not called can depend on more.

An option that ends the parsing or reports an error keeps `runThreefizer` from
being called wherever it stands (`runArguments_refused`); without one the
options are a fold of steps that commute.
-/
import Threefizer.Lib.Independent
import Threefizer.OptionConflict

namespace Threefizer
namespace CommandLine

/-- What an option is about. -/
inductive Kind
  | size | mode | help | hash | legacy | password | keyFile | rename | usage | version | unknown
  deriving DecidableEq, Repr

def Opt.kind : Opt → Kind
  | .b _ => .size
  | .d => .mode
  | .e => .mode
  | .h => .help
  | .n => .hash
  | .l => .legacy
  | .p _ => .password
  | .P _ => .keyFile
  | .r _ => .rename
  | .u => .usage
  | .V => .version
  | .unknown => .unknown

variable (files : Files)

/-- The option neither ends the parsing nor reports an error, a conflict apart. -/
def Opt.fine : Opt → Bool
  | .h | .u | .V | .unknown => false
  | .p optarg => decide (optarg.length > 6)
  | .P optarg => files.exists_ optarg && files.isFile optarg
  | _ => true

/-- What an option does to the arguments. -/
def apply (args : Arguments) (o : Opt) : Arguments := (parseOption files ⟨args, true, 0⟩ o).arguments

/-- Something is wrong with the options: one of them is not fine, or two are in conflict. -/
def Refused (encrypt : Bool) (os : List Opt) : Prop := (∃ o ∈ os, o.fine files = false) ∨ Conflict encrypt os

/-- The parsing was ended, or an error was reported. -/
def Parse.Failed (st : Parse) : Prop := st.parsing = false ∨ st.status ≠ 0

variable {files} {st : Parse} {o : Opt} {os os' opts opts' : List Opt} {operand : Option Path}
  {rounds : List Password.Round}

/-! ### One option -/

theorem parseOption_arguments (files : Files) (st : Parse) (o : Opt) :
    (parseOption files st o).arguments = apply files st.arguments o := by
  unfold apply
  cases o with
  | e | p | P =>
    simp only [parseOption]
    split <;> rfl
  | b | d | h | n | l | r | u | V | unknown => rfl

/-- A fine option without a conflict is a step on the arguments. -/
theorem parseOption_fine (ho : o.fine files = true) (hok : ¬ (o = .e ∧ st.arguments.encrypt = false)) :
    parseOption files st o = { st with arguments := apply files st.arguments o } := by
  rw [← parseOption_arguments]
  cases o with
  | e => rw [parseOption, if_neg fun hen => hok ⟨rfl, hen⟩]
  | p optarg => rw [parseOption, if_pos (of_decide_eq_true ho)]
  | P optarg =>
    have hfile : (files.exists_ optarg && files.isFile optarg) = true := ho
    rw [parseOption, if_pos hfile]
  | h | u | V | unknown => exact absurd ho Bool.false_ne_true
  | b | d | n | l | r => rfl

theorem fail_ne_zero : ARG_PARSING_FAIL ≠ 0 ∧ PASSWORD_TOO_SHORT ≠ 0 ∧ INVALID_PASSWORD_FILE ≠ 0 := by decide

/-- Any other fails. -/
theorem parseOption_failed (ho : o.fine files = false ∨ (o = .e ∧ st.arguments.encrypt = false)) :
    (parseOption files st o).Failed := by
  rcases ho with ho | ⟨rfl, hen⟩
  · cases o with
    | p optarg =>
      rw [parseOption, if_neg (of_decide_eq_false ho)]
      exact Or.inl rfl
    | P optarg =>
      have hfile : (files.exists_ optarg && files.isFile optarg) = false := ho
      rw [parseOption, if_neg (ne_true_of_eq_false hfile)]
      exact Or.inl rfl
    | h | u | V => exact Or.inl rfl
    | unknown => exact Or.inr fail_ne_zero.1
    | b | d | e | n | l | r => exact absurd ho.symm Bool.false_ne_true
  · rw [parseOption, if_pos hen]
    exact Or.inl rfl

/-- A status is not taken back. -/
theorem parseOption_status (files : Files) (o : Opt) (h : st.status ≠ 0) : (parseOption files st o).status ≠ 0 := by
  obtain ⟨harg, hshort, hfile⟩ := fail_ne_zero
  cases o with
  | e =>
    simp only [parseOption]
    split
    · exact harg
    · exact h
  | p optarg =>
    simp only [parseOption]
    split
    · exact h
    · exact hshort
  | P optarg =>
    simp only [parseOption]
    split
    · exact h
    · exact hfile
  | unknown => exact harg
  | b | d | h | n | l | r | u | V => exact h

/-- `-e` changes nothing, in conflict or not. -/
theorem apply_e (files : Files) (args : Arguments) : apply files args .e = args := by
  simp only [apply, parseOption]
  split <;> rfl

theorem apply_p (files : Files) (args : Arguments) (optarg : List Byte) : apply files args (.p optarg) =
    if optarg.length > 6 then { args with password := .argv optarg, pw_length := optarg.length } else args := by
  simp only [apply, parseOption]
  split <;> rfl

theorem apply_P (files : Files) (args : Arguments) (optarg : Path) : apply files args (.P optarg) =
    if files.exists_ optarg && files.isFile optarg then
      { args with free := true, hash_from_file := true, key_file := some optarg }
    else args := by
  simp only [apply, parseOption]
  split <;> rfl

/-- Options of different kinds set different fields. -/
theorem apply_comm (files : Files) (args : Arguments) (o o' : Opt) (hk : o.kind ≠ o'.kind) :
    apply files (apply files args o) o' = apply files (apply files args o') o := by
  cases o <;> cases o' <;> first
    | rfl
    | exact absurd rfl hk
    | (simp only [apply_e, apply_p, apply_P] <;> split_ifs <;> rfl)

/-! ### All options -/

theorem Parse.Failed.parseOptions (h : st.Failed) : (CommandLine.parseOptions files st os).Failed := by
  induction os generalizing st with
  | nil => exact h
  | cons o os ih =>
    rw [CommandLine.parseOptions]
    by_cases hp : st.parsing = true
    · rw [if_pos hp]
      exact ih (Or.inr (parseOption_status files o (h.resolve_left (by simp [hp]))))
    · rw [if_neg hp]
      exact h

theorem parseOptions_refused (hst : st.parsing = true) (h : Refused files st.arguments.encrypt os) :
    (parseOptions files st os).Failed := by
  induction os generalizing st with
  | nil =>
    rcases h with ⟨o, ho, -⟩ | ⟨-, h⟩ | h
    · cases ho
    · cases h
    · cases h
  | cons o os ih =>
    rw [parseOptions, if_pos hst]
    by_cases hnow : o.fine files = false ∨ (o = .e ∧ st.arguments.encrypt = false)
    · exact (parseOption_failed hnow).parseOptions
    · obtain ⟨hfine, hok⟩ := not_or.mp hnow
      have hstep := parseOption_fine (by simpa using hfine) hok
      refine ih (by rw [hstep]; exact hst) ?_
      rw [parseOption_encrypt]
      rcases h with ⟨o', ho', hbad⟩ | hconf
      · rcases List.mem_cons.mp ho' with rfl | ho'
        · exact absurd hbad hfine
        · exact Or.inl ⟨o', ho', hbad⟩
      · exact Or.inr ((conflict_cons.mp hconf).resolve_left hok)

theorem parseOptions_fine (hst : st.parsing = true) (h : ¬ Refused files st.arguments.encrypt os) :
    parseOptions files st os = { st with arguments := os.foldl (apply files) st.arguments } := by
  induction os generalizing st with
  | nil => rfl
  | cons o os ih =>
    obtain ⟨hfine, hconf⟩ := not_or.mp h
    obtain ⟨hok, hlater⟩ := not_or.mp (mt conflict_cons.mpr hconf)
    have ho : o.fine files = true := by
      by_contra hbad
      exact hfine ⟨o, List.mem_cons_self, by simpa using hbad⟩
    have hstep := parseOption_fine ho hok
    rw [parseOptions, if_pos hst, ih (by rw [hstep]; exact hst), hstep]
    · rfl
    · rw [parseOption_encrypt]
      refine not_or.mpr ⟨fun hex => ?_, hlater⟩
      obtain ⟨o', ho', hbad⟩ := hex
      exact hfine ⟨o', List.mem_cons_of_mem _ ho', hbad⟩

/-! ### The call -/

theorem Parse.Failed.checkTarget (h : st.Failed) :
    ¬ ((CommandLine.checkTarget files operand st).1.status = 0 ∧
      (CommandLine.checkTarget files operand st).2 = true) := by
  unfold CommandLine.checkTarget
  by_cases hp : st.parsing = true
  · have hstatus := h.resolve_left (by simp [hp])
    rw [if_pos hp]
    split
    · split
      · exact fun hrun => hstatus hrun.1
      · exact fun hrun => absurd hrun.2 Bool.false_ne_true
    · exact fun hrun => absurd hrun.2 Bool.false_ne_true
  · rw [if_neg hp]
    exact fun hrun => absurd hrun.2 Bool.false_ne_true

theorem runArguments_refused (h : Refused files true opts) : runArguments files opts operand rounds = none := by
  have hfailed : (parseOptions files ⟨initArguments, true, 0⟩ opts).Failed := parseOptions_refused rfl h
  simp only [runArguments]
  rw [if_neg hfailed.checkTarget]

/-! ### Reordering -/

/-- A conflict is one between options of one kind. -/
theorem conflict_filter (encrypt : Bool) (os : List Opt) :
    Conflict encrypt os ↔ Conflict encrypt (os.filter fun o => o.kind = .mode) := by
  have hmem : Opt.e ∈ os ↔ Opt.e ∈ os.filter fun o => o.kind = .mode := by
    rw [List.mem_filter]
    exact (and_iff_left rfl).symm
  have hsub : [Opt.d, Opt.e].Sublist os ↔ [Opt.d, Opt.e].Sublist (os.filter fun o => o.kind = .mode) :=
    ⟨fun h => by simpa [Opt.kind] using h.filter fun o => decide (o.kind = .mode), fun h => h.trans List.filter_sublist⟩
  rw [Conflict, Conflict, hmem, hsub]

theorem Refused.reorder {encrypt : Bool} (h : Independent.SameKinds Opt.kind os os') (hR : Refused files encrypt os) :
    Refused files encrypt os' := by
  rcases hR with ⟨o, ho, hbad⟩ | hconf
  · exact Or.inl ⟨o, h.mem ho, hbad⟩
  · rw [conflict_filter, h .mode, ← conflict_filter] at hconf
    exact Or.inr hconf

/-- **Options of different kinds can be given in any order**: what
`runThreefizer` is called with, and whether it is called, stays the same; and
if it is called, so does everything `main` does. -/
theorem options_any_order (files : Files) (opts opts' : List Opt) (operand : Option Path)
    (rounds : List Password.Round) (h : Independent.SameKinds Opt.kind opts opts') :
    runArguments files opts operand rounds = runArguments files opts' operand rounds ∧
      (runArguments files opts operand rounds ≠ none →
        ∀ run, main files opts operand rounds run = main files opts' operand rounds run) := by
  have hrun : runArguments files opts operand rounds = runArguments files opts' operand rounds := by
    by_cases hR : Refused files true opts
    · rw [runArguments_refused hR, runArguments_refused (hR.reorder h)]
    · have hR' : ¬ Refused files true opts' := fun hR' => hR (hR'.reorder h.symm)
      have hparse : parseOptions files ⟨initArguments, true, 0⟩ opts =
          parseOptions files ⟨initArguments, true, 0⟩ opts' := by
        rw [parseOptions_fine rfl hR, parseOptions_fine rfl hR', h.foldl_eq (apply_comm files)]
      unfold runArguments
      rw [hparse]
  refine ⟨hrun, fun hne run => ?_⟩
  obtain ⟨args, hargs⟩ := Option.ne_none_iff_exists'.mp hne
  rw [main_of_run hargs, main_of_run (hrun ▸ hargs)]

/-- `-d -n -p password` and `-p password -d -n`. -/
theorem options_any_order_sample :
    let files : Files := ⟨fun _ => true, fun _ => true, fun _ => 200⟩
    (runArguments files [.p (List.replicate 8 65), .d, .n] (some [1]) []).any (fun args => !args.encrypt) = true := by
  intro files
  have hsame : Independent.SameKinds Opt.kind [.d, .n, .p (List.replicate 8 65)] [.p (List.replicate 8 65), .d, .n] :=
    fun k => by cases k <;> rfl
  rw [← (options_any_order files _ _ (some [1]) [] hsame).1]
  decide

end CommandLine
end Threefizer
