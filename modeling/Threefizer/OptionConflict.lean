/-
# Encrypt and decrypt on one command line (`main` of `threefizer.c`)

The mode is one bit, `encrypt`, and it starts as `-e` would set it. `-d` clears
it; `-e` only looks at it, and ends the parsing with `ARG_PARSING_FAIL` if it
finds it cleared. So `main` notices that both are given exactly if some `-e`
comes after some `-d` (`conflict_detected_iff`). With every `-e` in front of
every `-d` it decrypts.
-/
import Threefizer.CommandLine

namespace Threefizer
namespace CommandLine

variable (files : Files)

/-- The arguments `main` calls `runThreefizer` with; none when it does not call it. -/
def runArguments (opts : List Opt) (operand : Option Path) (rounds : List Password.Round) : Option Arguments :=
  let (st, mand_arg) := checkTarget files operand (parseOptions files ⟨initArguments, true, 0⟩ opts)
  if st.status = 0 ∧ mand_arg then
    if st.arguments.hash_from_file = false ∧ st.arguments.password = .NULL then
      (Password.askPassword rounds).result.map (answered st.arguments)
    else some st.arguments
  else none

/-- The option neither stops the parsing nor reports an error. -/
def Quiet (o : Opt) : Prop :=
  ∀ st, (parseOption files st o).parsing = st.parsing ∧ (parseOption files st o).status = st.status

/-- `main` notices that both modes are asked for: the options end with
`ARG_PARSING_FAIL`, and so does `main`, which does not call `runThreefizer`. -/
structure Detected (opts : List Opt) (operand : Option Path) (rounds : List Password.Round) : Prop where
  status : (parseOptions files ⟨initArguments, true, 0⟩ opts).status = ARG_PARSING_FAIL
  notRun : runArguments files opts operand rounds = none
  returned : ∀ run, ∃ e, main files opts operand rounds run = some e ∧ e.status = ARG_PARSING_FAIL

/-- There is an `-e` after a `-d`, or after `encrypt` was cleared. -/
def Conflict (encrypt : Bool) (os : List Opt) : Prop :=
  encrypt = false ∧ Opt.e ∈ os ∨ [Opt.d, Opt.e].Sublist os

variable {files} {st : Parse} {o : Opt} {os opts : List Opt} {encrypt : Bool} {operand : Option Path}
  {rounds : List Password.Round}

/-! ### The call of `runThreefizer` -/

/-- If `runThreefizer` is called, `main` ends with what it returns. -/
theorem main_of_run {args : Arguments} (h : runArguments files opts operand rounds = some args) (run : Run) :
    main files opts operand rounds run =
      some (finish { args with threads_active := run.threads_active } run.status) := by
  simp only [runArguments] at h
  split at h
  next hrun => simp only [main, if_pos hrun, h, Option.map_some]
  next => exact absurd h.symm (Option.some_ne_none args)

/-- If it is not called, what it would return makes no difference. -/
theorem main_of_not_run (h : runArguments files opts operand rounds = none) (run run' : Run) :
    main files opts operand rounds run = main files opts operand rounds run' := by
  simp only [runArguments] at h
  simp only [main]
  split at h
  next hrun => simp only [if_pos hrun, h, Option.map_none]
  next hrun => simp only [if_neg hrun]

/-! ### One option -/

/-- `-d` alone changes `encrypt`. -/
theorem parseOption_encrypt (files : Files) (st : Parse) (o : Opt) :
    (parseOption files st o).arguments.encrypt = o.encryptAfter st.arguments.encrypt := by
  cases o with
  | e | p | P =>
    simp only [parseOption]
    split <;> rfl
  | b | d | h | n | l | r | u | V | unknown => rfl

/-- An option that is not in conflict with those before it changes neither
`parsing` nor `status`. -/
theorem parseOption_quiet (ho : o = .d ∨ o = .e ∨ Quiet files o)
    (hok : ¬ (o = .e ∧ st.arguments.encrypt = false)) :
    (parseOption files st o).parsing = st.parsing ∧ (parseOption files st o).status = st.status := by
  rcases ho with rfl | rfl | hquiet
  · exact ⟨rfl, rfl⟩
  · rw [parseOption, if_neg fun hen => hok ⟨rfl, hen⟩]
    exact ⟨rfl, rfl⟩
  · exact hquiet st

theorem encryptAfter_of_ne (hd : o ≠ .d) : o.encryptAfter encrypt = encrypt := by
  cases o with
  | d => exact absurd rfl hd
  | _ => rfl

/-- A conflict with the first option, or one that is left when it is processed. -/
theorem conflict_cons : Conflict encrypt (o :: os) ↔
    o = .e ∧ encrypt = false ∨ Conflict (o.encryptAfter encrypt) os := by
  by_cases hd : o = .d
  · subst hd
    have hsub : [Opt.d, Opt.e].Sublist (.d :: os) ↔ [Opt.d, Opt.e].Sublist os ∨ .e ∈ os := by
      rw [List.cons_sublist_cons', List.singleton_sublist]
      simp
    have hne : Opt.e ≠ .d := by decide
    simp only [Conflict, Opt.encryptAfter, hsub, List.mem_cons, hne, hne.symm, false_or, false_and, true_and]
    tauto
  · have hsub : [Opt.d, Opt.e].Sublist (o :: os) ↔ [Opt.d, Opt.e].Sublist os :=
      ⟨fun h => by cases h with
        | cons _ h => exact h
        | cons_cons _ h => exact absurd rfl hd, fun h => h.cons o⟩
    rw [Conflict, Conflict, encryptAfter_of_ne hd, hsub, List.mem_cons]
    tauto

/-! ### All options -/

/-- A conflict among the options ends the parsing. -/
theorem parseOptions_conflict (files : Files) (st : Parse) (hos : ∀ o ∈ os, o = .d ∨ o = .e ∨ Quiet files o)
    (hst : st.parsing = true) (h : Conflict st.arguments.encrypt os) :
    (parseOptions files st os).parsing = false ∧ (parseOptions files st os).status = ARG_PARSING_FAIL := by
  induction os generalizing st with
  | nil => rcases h with ⟨-, h⟩ | h <;> cases h
  | cons o os ih =>
    rw [parseOptions, if_pos hst]
    by_cases hnow : o = .e ∧ st.arguments.encrypt = false
    · obtain ⟨rfl, hen⟩ := hnow
      have hfail : parseOption files st .e = { st with parsing := false, status := ARG_PARSING_FAIL } := by
        rw [parseOption, if_pos hen]
      -- the loop leaves before the next option
      rw [hfail]
      cases os <;> exact ⟨rfl, rfl⟩
    · have hlater := (conflict_cons.mp h).resolve_left hnow
      rw [← parseOption_encrypt files] at hlater
      have hparsing := (parseOption_quiet (hos o List.mem_cons_self) hnow).1
      exact ih _ (fun o ho => hos o (List.mem_cons_of_mem _ ho)) (hparsing.trans hst) hlater

/-- Without one the options report nothing. -/
theorem parseOptions_quiet (files : Files) (st : Parse) (hos : ∀ o ∈ os, o = .d ∨ o = .e ∨ Quiet files o)
    (h : ¬ Conflict st.arguments.encrypt os) : (parseOptions files st os).status = st.status := by
  induction os generalizing st with
  | nil => rfl
  | cons o os ih =>
    obtain ⟨hnow, hlater⟩ := not_or.mp (mt conflict_cons.mpr h)
    rw [parseOptions]
    split
    · rw [← parseOption_encrypt files] at hlater
      rw [ih _ (fun o ho => hos o (List.mem_cons_of_mem _ ho)) hlater]
      exact (parseOption_quiet (hos o List.mem_cons_self) hnow).2
    · rfl

/-! ### A conflict that is missed -/

theorem encryptAfter_eq_false : o.encryptAfter encrypt = false ↔ encrypt = false ∨ o = .d := by
  by_cases hd : o = .d
  · subst hd
    exact iff_of_true rfl (Or.inr rfl)
  · rw [encryptAfter_of_ne hd]
    exact ⟨Or.inl, fun h => h.resolve_right hd⟩

/-- Without a conflict `-d` decides the mode, wherever it stands. -/
theorem parseOptions_encrypt (files : Files) (st : Parse) (hos : ∀ o ∈ os, o = .d ∨ o = .e ∨ Quiet files o)
    (hst : st.parsing = true) (h : ¬ Conflict st.arguments.encrypt os) :
    (parseOptions files st os).arguments.encrypt = false ↔ st.arguments.encrypt = false ∨ Opt.d ∈ os := by
  induction os generalizing st with
  | nil => exact ⟨Or.inl, fun h => h.resolve_right List.not_mem_nil⟩
  | cons o os ih =>
    obtain ⟨hnow, hlater⟩ := not_or.mp (mt conflict_cons.mpr h)
    have hparsing := (parseOption_quiet (hos o List.mem_cons_self) hnow).1
    rw [← parseOption_encrypt files] at hlater
    rw [parseOptions, if_pos hst, ih _ (fun o ho => hos o (List.mem_cons_of_mem _ ho)) (hparsing.trans hst) hlater,
      parseOption_encrypt, encryptAfter_eq_false, List.mem_cons, or_assoc]
    exact or_congr_right (or_congr_left eq_comm)

theorem checkTarget_encrypt (files : Files) (operand : Option Path) (st : Parse) :
    (checkTarget files operand st).1.arguments.encrypt = st.arguments.encrypt := by
  unfold checkTarget
  split
  · split
    · split <;> rfl
    · rfl
  · rfl

/-- If the two modes are asked for and that is not noticed, the file is decrypted. -/
theorem decrypts_of_missed {args : Arguments} (hopts : ∀ o ∈ opts, o = .d ∨ o = .e ∨ Quiet files o)
    (hd : Opt.d ∈ opts) (hmissed : ¬ [Opt.d, Opt.e].Sublist opts)
    (h : runArguments files opts operand rounds = some args) : args.encrypt = false := by
  have hno : ¬ Conflict initArguments.encrypt opts := fun h =>
    hmissed (h.resolve_left fun h => absurd h.1 (by decide))
  have hclear : (parseOptions files ⟨initArguments, true, 0⟩ opts).arguments.encrypt = false :=
    (parseOptions_encrypt files ⟨initArguments, true, 0⟩ hopts rfl hno).mpr (Or.inr hd)
  rw [← checkTarget_encrypt files operand] at hclear
  simp only [runArguments] at h
  split at h
  next =>
    split at h
    · obtain ⟨a, -, rfl⟩ := Option.map_eq_some_iff.mp h
      exact hclear
    · cases h
      exact hclear
  next => exact absurd h.symm (Option.some_ne_none args)

/-! ### When it is noticed -/

/-- **Both modes on one command line are noticed exactly if an `-e` comes after
a `-d`**, whatever else is given that is no error in itself. -/
theorem conflict_detected_iff (files : Files) (opts : List Opt) (operand : Option Path)
    (rounds : List Password.Round) (hopts : ∀ o ∈ opts, o = .d ∨ o = .e ∨ Quiet files o) :
    Detected files opts operand rounds ↔ [Opt.d, Opt.e].Sublist opts := by
  have hconflict : Conflict initArguments.encrypt opts ↔ [Opt.d, Opt.e].Sublist opts :=
    ⟨fun h => h.resolve_left fun h => absurd h.1 (by decide), Or.inr⟩
  constructor
  · intro h
    rw [← hconflict]
    by_contra hno
    have hstatus := parseOptions_quiet files ⟨initArguments, true, 0⟩ hopts hno
    exact absurd (h.status.symm.trans hstatus) (by decide)
  · intro h
    obtain ⟨hparsing, hstatus⟩ :=
      parseOptions_conflict files ⟨initArguments, true, 0⟩ hopts rfl (hconflict.mpr h)
    have htarget : checkTarget files operand (parseOptions files ⟨initArguments, true, 0⟩ opts) =
        (parseOptions files ⟨initArguments, true, 0⟩ opts, false) := by
      simp only [checkTarget, hparsing, Bool.false_eq_true, if_false]
    refine ⟨hstatus, ?_, fun run => ⟨finish (parseOptions files ⟨initArguments, true, 0⟩ opts).arguments _, ?_, hstatus⟩⟩
    · simp only [runArguments, htarget, Bool.false_eq_true, and_false, if_false]
    · simp only [main, htarget, Bool.false_eq_true, and_false, if_false]

/-- `-d -p hunter2 -e file`. -/
theorem conflict_detected_sample : [Opt.d, Opt.e].Sublist [.d, .p [104, 117, 110, 116, 101, 114, 50], .e] ∧
    Detected sampleFiles [.d, .p [104, 117, 110, 116, 101, 114, 50], .e] (some [102]) [] := by
  have hsub : [Opt.d, Opt.e].Sublist [.d, .p [104, 117, 110, 116, 101, 114, 50], .e] := by decide
  have hopts : ∀ o ∈ [Opt.d, .p [104, 117, 110, 116, 101, 114, 50], .e],
      o = .d ∨ o = .e ∨ Quiet sampleFiles o := by
    simp only [List.mem_cons, List.not_mem_nil, or_false]
    rintro o (rfl | rfl | rfl)
    · exact Or.inl rfl
    · exact Or.inr (Or.inr fun _ => ⟨rfl, rfl⟩)
    · exact Or.inr (Or.inl rfl)
  exact ⟨hsub, (conflict_detected_iff sampleFiles _ (some [102]) [] hopts).mpr hsub⟩

/-- `-e -d -n -P key file` decrypts, and with `-d` and `-e` exchanged it is refused. -/
theorem conflict_missed :
    ∃ args, runArguments sampleFiles [.e, .d, .n, .P [107]] (some [102]) [] = some args ∧ args.encrypt = false ∧
      ¬ Detected sampleFiles [.e, .d, .n, .P [107]] (some [102]) [] ∧
      (parseOptions sampleFiles ⟨initArguments, true, 0⟩ [.d, .e, .n, .P [107]]).status = ARG_PARSING_FAIL ∧
      runArguments sampleFiles [.d, .e, .n, .P [107]] (some [102]) [] = none := by
  refine ⟨_, rfl, rfl, fun h => ?_, rfl, rfl⟩
  exact absurd h.status (by decide)

end CommandLine
end Threefizer
