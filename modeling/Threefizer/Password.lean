/-
# The prompt for a password (`askPassword` and `getPassword` of `util.c`)

`askPassword` asks twice, in rounds, until both answers are the same and have
at least six characters. What `getPassword` finds is a line or a failure: the
terminal cannot be queried or the input has ended. A line is what `getline`
stores with its terminator in the buffer it is given, so at most
`BUFF_SIZE - 1` characters; a longer one makes it move the buffer.

`getPassword` returns a signed length, -1 for a failure, and `askPassword`
keeps it in 16 bits, where -1 is 65535. A failure next to a line is still told
apart by its length. Two failures in one round are not: 65535 bytes are
compared, and if they agree 65535 bytes are the password. As long as that does
not happen what is returned has been entered twice (`askPassword_sound_iff`).

A comparison or copy of `n` bytes reads `n` bytes of its operands. What stands
behind the buffers is part of a round, since only those reads see it.
-/
import Threefizer.Lib.Traced
import Threefizer.Lib.Words

namespace Threefizer
namespace Password

def BUFF_SIZE : ℕ := 1024

/-- `'\n'`. -/
def newline : Byte := 10

/-- `getPassword`: what it returns and what is in the buffer then. `line` is
what `getline` reads, none when it or the terminal fails. -/
def getPassword (line_buff : List Byte) (line : Option (List Byte)) : ℤ × List Byte :=
  match line with
  | none => (-1, line_buff)
  | some line =>
    let nread := line.length
    let line_buff := line ++ 0 :: line_buff.drop (nread + 1)
    if nread ≥ 1 ∧ line_buff.getD (nread - 1) 0 = newline then
      (((nread - 1 : ℕ) : ℤ), line_buff.set (nread - 1) 0)
    else ((nread : ℤ), line_buff)

/-- A signed length kept in a `uint16_t`. -/
def narrow (n : ℤ) : ℕ := (n % 2 ^ 16).toNat

/-- One round: the two answers, and what stands in memory behind the buffers. -/
structure Round where
  first : Option (List Byte)
  second : Option (List Byte)
  behind_pw1 : List Byte
  behind_pw2 : List Byte

/-- A read of the buffers: how many bytes of each are compared, or copied. -/
inductive Access
  | memcmp (n : ℕ)
  | memcpy (n : ℕ)
  deriving DecidableEq, Repr

/-- It is inside the buffers. -/
def Access.Inside : Access → Prop
  | .memcmp n => n ≤ BUFF_SIZE
  | .memcpy n => n ≤ BUFF_SIZE

/-- What `askPassword` sets in the arguments. -/
structure Answer where
  password : List Byte
  pw_length : ℕ
  free : Bool
  deriving DecidableEq, Repr

def zeroFill : List Byte := List.replicate BUFF_SIZE 0

/-- The loop of `askPassword`, with the buffers as they are. -/
def askLoop : List Byte → List Byte → List Round → Traced Access Answer
  | _, _, [] => .stuck
  | pw1, pw2, r :: rs =>
    let (nread1, pw1) := getPassword pw1 r.first
    let (nread2, pw2) := getPassword pw2 r.second
    let pw1_len := narrow nread1
    let pw2_len := narrow nread2
    if pw1_len < 6 ∨ pw2_len < 6 then askLoop pw1 pw2 rs
    else if pw1_len = pw2_len then
      .emit (.memcmp pw2_len)
        (if (pw1 ++ r.behind_pw1).take pw2_len = (pw2 ++ r.behind_pw2).take pw2_len then
          .emit (.memcpy pw2_len) (.done
            { password := (pw2 ++ r.behind_pw2).take pw2_len ++ [0]
              pw_length := pw2_len
              free := true })
        else askLoop zeroFill zeroFill rs)
    else askLoop zeroFill zeroFill rs

/-- `askPassword` in the rounds given; it has not returned if they do not suffice. -/
def askPassword (rounds : List Round) : Traced Access Answer := askLoop zeroFill zeroFill rounds

/-! ### What is entered -/

/-- A line without the newline at its end. -/
def stripped (line : List Byte) : List Byte :=
  if line.getLast? = some newline then line.dropLast else line

/-- The line an answer is, none for a failure. -/
def entered (line : Option (List Byte)) : Option (List Byte) := line.map stripped

namespace Round

/-- The lines fit into the buffers. -/
def Fits (r : Round) : Prop :=
  (∀ line, r.first = some line → line.length < BUFF_SIZE) ∧
    ∀ line, r.second = some line → line.length < BUFF_SIZE

/-- Both calls fail. -/
def BothFail (r : Round) : Prop := r.first = none ∧ r.second = none

/-- The same line of at least six characters is entered twice. -/
def Agrees (r : Round) (line : List Byte) : Prop :=
  entered r.first = some line ∧ entered r.second = some line ∧ 6 ≤ line.length

end Round

/-- Up to the round in which a password is entered twice, no round fails in
both calls. -/
def NeverBothFail : List Round → Prop
  | [] => True
  | r :: rs => ¬ r.BothFail ∧ ((∃ line, r.Agrees line) ∨ NeverBothFail rs)

/-- The loop has returned in the round `r`, its last, in which one line has been
entered twice; that line is what the arguments hold. -/
def EnteredTwice (pw1 pw2 : List Byte) (rounds : List Round) (a : Answer) : Prop :=
  ∃ (earlier : List Round) (r : Round) (later : List Round) (line : List Byte),
    rounds = earlier ++ r :: later ∧ (askLoop pw1 pw2 earlier).result = none ∧
      (askLoop pw1 pw2 (earlier ++ [r])).result = some a ∧ r.Agrees line ∧
      a.password = line ++ [0] ∧ a.pw_length = line.length ∧ a.free = true

/-! ### One call -/

section Calls

variable {buff line : List Byte}

theorem stripped_length_le (line : List Byte) : (stripped line).length ≤ line.length := by
  unfold stripped
  split
  · rw [List.length_dropLast]
    omega
  · exact le_rfl

/-- A line leaves its length and, in front of a terminator, itself. -/
theorem getPassword_line (hbuff : buff.length = BUFF_SIZE) (hline : line.length < BUFF_SIZE) :
    ∃ rest, getPassword buff (some line) = (((stripped line).length : ℤ), stripped line ++ 0 :: rest) ∧
      (stripped line ++ 0 :: rest).length = BUFF_SIZE := by
  rcases List.eq_nil_or_concat line with rfl | ⟨init, c, rfl⟩
  · refine ⟨buff.drop 1, rfl, ?_⟩
    simp only [stripped, List.getLast?_nil, reduceCtorEq, if_false, List.nil_append, List.length_cons,
      List.length_drop]
    omega
  · rw [List.concat_eq_append] at hline ⊢
    have hlen : (init ++ [c]).length = init.length + 1 := List.length_append
    have hlast : (init ++ [c] ++ 0 :: buff.drop (init.length + 1 + 1)).getD init.length 0 = c := by
      rw [List.append_assoc, List.getD_eq_getElem?_getD, List.getElem?_append_right le_rfl, Nat.sub_self]
      rfl
    have hstrip : stripped (init ++ [c]) = if c = newline then init else init ++ [c] := by
      simp only [stripped, List.getLast?_concat, Option.some.injEq, List.dropLast_concat]
    rw [hlen] at hline
    simp only [getPassword, hlen, Nat.add_sub_cancel, hlast, hstrip]
    by_cases hc : c = newline
    · refine ⟨0 :: buff.drop (init.length + 1 + 1), ?_, ?_⟩
      · rw [if_pos ⟨by omega, hc⟩, if_pos hc, List.append_assoc, List.set_append_right _ _ le_rfl, Nat.sub_self]
        rfl
      · rw [if_pos hc]
        simp only [List.length_append, List.length_cons, List.length_drop]
        omega
    · refine ⟨buff.drop (init.length + 1 + 1), ?_, ?_⟩
      · rw [if_neg (fun h => hc h.2), if_neg hc, hlen]
      · rw [if_neg hc]
        simp only [List.length_append, List.length_cons, List.length_drop, List.length_nil]
        omega

/-- What a call leaves in the buffer has its size. -/
theorem length_getPassword (hbuff : buff.length = BUFF_SIZE) {answer : Option (List Byte)}
    (hfits : ∀ line, answer = some line → line.length < BUFF_SIZE) :
    (getPassword buff answer).2.length = BUFF_SIZE := by
  cases answer with
  | none => exact hbuff
  | some line =>
    obtain ⟨rest, h, hlen⟩ := getPassword_line hbuff (hfits line rfl)
    rw [h]
    exact hlen

/-- A failure is kept as 65535. -/
theorem narrow_failure : narrow (-1) = 65535 := rfl

theorem narrow_length {n : ℕ} (h : n < BUFF_SIZE) : narrow n = n := by
  have hB : BUFF_SIZE = 1024 := rfl
  unfold narrow
  omega

/-- The length an answer is kept with. -/
def keptLength (answer : Option (List Byte)) : ℕ := (entered answer).elim 65535 List.length

theorem keptLength_of_entered {answer : Option (List Byte)} {line : List Byte} (h : entered answer = some line) :
    keptLength answer = line.length := by rw [keptLength, h]; rfl

/-- An answer kept with the length of a line is a line. -/
theorem entered_of_keptLength {answer : Option (List Byte)} (h : keptLength answer < BUFF_SIZE) :
    ∃ line, entered answer = some line := by
  cases answer with
  | none => exact absurd h (by decide)
  | some line => exact ⟨_, rfl⟩

theorem keptLength_lt {answer : Option (List Byte)} {line : List Byte} (h : answer = some line)
    (hline : line.length < BUFF_SIZE) : keptLength answer < BUFF_SIZE := by
  rw [h]
  exact lt_of_le_of_lt (stripped_length_le line) hline

theorem narrow_getPassword (hbuff : buff.length = BUFF_SIZE) {answer : Option (List Byte)}
    (hfits : ∀ line, answer = some line → line.length < BUFF_SIZE) :
    narrow (getPassword buff answer).1 = keptLength answer := by
  cases answer with
  | none => rfl
  | some line =>
    obtain ⟨rest, h, -⟩ := getPassword_line hbuff (hfits line rfl)
    rw [h]
    exact narrow_length (lt_of_le_of_lt (stripped_length_le line) (hfits line rfl))

/-- A line stands at the start of its buffer. -/
theorem take_getPassword (hbuff : buff.length = BUFF_SIZE) {answer : Option (List Byte)}
    (hfits : ∀ line, answer = some line → line.length < BUFF_SIZE) {line : List Byte}
    (h : entered answer = some line) (behind : List Byte) :
    ((getPassword buff answer).2 ++ behind).take line.length = line := by
  cases answer with
  | none => cases h
  | some raw =>
    cases h
    obtain ⟨rest, h, -⟩ := getPassword_line hbuff (hfits raw rfl)
    rw [h, List.append_assoc, List.take_left]

end Calls

/-! ### One round -/

section Rounds

variable {pw1 pw2 : List Byte} {r : Round} {rs : List Round}

/-- Too short: the buffers stay as they are. -/
theorem askLoop_short
    (h : narrow (getPassword pw1 r.first).1 < 6 ∨ narrow (getPassword pw2 r.second).1 < 6) :
    askLoop pw1 pw2 (r :: rs) = askLoop (getPassword pw1 r.first).2 (getPassword pw2 r.second).2 rs := by
  simp only [askLoop]
  rw [if_pos h]

/-- Long enough, but of different lengths: the buffers are cleared. -/
theorem askLoop_lengths
    (h : ¬ (narrow (getPassword pw1 r.first).1 < 6 ∨ narrow (getPassword pw2 r.second).1 < 6))
    (hne : narrow (getPassword pw1 r.first).1 ≠ narrow (getPassword pw2 r.second).1) :
    askLoop pw1 pw2 (r :: rs) = askLoop zeroFill zeroFill rs := by
  simp only [askLoop]
  rw [if_neg h, if_neg hne]

/-- Of one length `n`: the buffers are compared. -/
theorem askLoop_compared {n : ℕ} (h1 : narrow (getPassword pw1 r.first).1 = n)
    (h2 : narrow (getPassword pw2 r.second).1 = n) (hn : 6 ≤ n) : askLoop pw1 pw2 (r :: rs) =
      .emit (.memcmp n) (if ((getPassword pw1 r.first).2 ++ r.behind_pw1).take n =
          ((getPassword pw2 r.second).2 ++ r.behind_pw2).take n then
        .emit (.memcpy n) (.done ⟨((getPassword pw2 r.second).2 ++ r.behind_pw2).take n ++ [0], n, true⟩)
      else askLoop zeroFill zeroFill rs) := by
  simp only [askLoop, h1, h2]
  rw [if_neg (by omega), if_pos trivial]

/-- Another round follows, with buffers of the same size; this one has read
inside them and no password was entered twice. -/
def Again (pw1 pw2 : List Byte) (r : Round) : Prop :=
  (∀ line, ¬ r.Agrees line) ∧ ∃ pw1' pw2' read, pw1'.length = BUFF_SIZE ∧ pw2'.length = BUFF_SIZE ∧
    (∀ a ∈ read, Access.Inside a) ∧ ∀ rs, askLoop pw1 pw2 (r :: rs) =
      ⟨read ++ (askLoop pw1' pw2' rs).events, (askLoop pw1' pw2' rs).result⟩

/-- The line entered twice is returned. -/
def Returns (pw1 pw2 : List Byte) (r : Round) : Prop :=
  ∃ line, r.Agrees line ∧ ∀ rs, (askLoop pw1 pw2 (r :: rs)).All Access.Inside ∧
    (askLoop pw1 pw2 (r :: rs)).result = some ⟨line ++ [0], line.length, true⟩

theorem length_zeroFill : zeroFill.length = BUFF_SIZE := List.length_replicate

theorem Round.Agrees.keptLength {line : List Byte} (h : r.Agrees line) :
    Password.keptLength r.first = line.length ∧ Password.keptLength r.second = line.length :=
  ⟨keptLength_of_entered h.1, keptLength_of_entered h.2.1⟩

/-- The answers of a round that does not fail in both calls are lines if they
are kept with the same length. -/
theorem Round.Fits.lines (hfits : r.Fits) (hfail : ¬ r.BothFail) (heq : keptLength r.first = keptLength r.second) :
    ∃ l1 l2, entered r.first = some l1 ∧ entered r.second = some l2 := by
  have hlt : keptLength r.first < BUFF_SIZE := by
    by_cases h1 : r.first = none
    · obtain ⟨line, h2⟩ := Option.ne_none_iff_exists'.mp fun h2 => hfail ⟨h1, h2⟩
      rw [heq]
      exact keptLength_lt h2 (hfits.2 line h2)
    · obtain ⟨line, h1⟩ := Option.ne_none_iff_exists'.mp h1
      exact keptLength_lt h1 (hfits.1 line h1)
  obtain ⟨l1, h1⟩ := entered_of_keptLength hlt
  obtain ⟨l2, h2⟩ := entered_of_keptLength (heq ▸ hlt)
  exact ⟨l1, l2, h1, h2⟩

/-- A round that does not fail in both calls comes to one of the two. -/
theorem again_or_returns (h1 : pw1.length = BUFF_SIZE) (h2 : pw2.length = BUFF_SIZE) (hfits : r.Fits)
    (hfail : ¬ r.BothFail) : Again pw1 pw2 r ∨ Returns pw1 pw2 r := by
  have hn1 := narrow_getPassword h1 hfits.1
  have hn2 := narrow_getPassword h2 hfits.2
  have hnone : ∀ a ∈ ([] : List Access), a.Inside := List.forall_mem_nil _
  by_cases hshort : keptLength r.first < 6 ∨ keptLength r.second < 6
  · refine Or.inl ⟨fun line h => ?_, _, _, [], length_getPassword h1 hfits.1, length_getPassword h2 hfits.2, hnone,
      fun rs => askLoop_short (by rwa [hn1, hn2])⟩
    have := h.keptLength
    have := h.2.2
    omega
  by_cases heq : keptLength r.first = keptLength r.second
  · obtain ⟨l1, l2, hl1, hl2⟩ := hfits.lines hfail heq
    have hk1 := keptLength_of_entered hl1
    have hk2 := keptLength_of_entered hl2
    have hsame : l1.length = l2.length := by omega
    have hinside : l2.length ≤ BUFF_SIZE := by
      obtain ⟨line, hline⟩ : ∃ line, r.second = some line := by
        cases hs : r.second with
        | none => rw [hs] at hl2; cases hl2
        | some line => exact ⟨line, rfl⟩
      have := keptLength_lt hline (hfits.2 line hline)
      omega
    have hcompared := fun rs => @askLoop_compared pw1 pw2 r rs l2.length (by omega) (by omega) (by omega)
    have ht1 := take_getPassword h1 hfits.1 hl1 r.behind_pw1
    rw [hsame] at ht1
    simp only [ht1, take_getPassword h2 hfits.2 hl2] at hcompared
    by_cases hl : l1 = l2
    · subst hl
      refine Or.inr ⟨l1, ⟨hl1, hl2, by omega⟩, fun rs => ?_⟩
      rw [hcompared, if_pos rfl]
      exact ⟨Traced.all_emit.mpr ⟨hinside, Traced.all_emit.mpr ⟨hinside, Traced.all_done _⟩⟩, rfl⟩
    · refine Or.inl ⟨fun line h => hl ?_, _, _, [.memcmp l2.length], length_zeroFill, length_zeroFill, ?_,
        fun rs => ?_⟩
      · exact Option.some.inj (hl1.symm.trans (h.1.trans (h.2.1.symm.trans hl2)))
      · exact List.forall_mem_singleton.mpr hinside
      · rw [hcompared, if_neg hl]
        rfl
  · refine Or.inl ⟨fun line h => heq (h.keptLength.1.trans h.keptLength.2.symm), _, _, [], length_zeroFill,
      length_zeroFill, hnone, fun rs => askLoop_lengths (by rwa [hn1, hn2]) (by rwa [hn1, hn2])⟩

/-- A round that fails in both calls compares 65535 bytes. -/
theorem askLoop_bothFail (hfail : r.BothFail) : ¬ (askLoop pw1 pw2 (r :: rs)).All Access.Inside := by
  intro hall
  have h1 : narrow (getPassword pw1 r.first).1 = 65535 := by
    rw [hfail.1]
    exact narrow_failure
  have h2 : narrow (getPassword pw2 r.second).1 = 65535 := by
    rw [hfail.2]
    exact narrow_failure
  rw [askLoop_compared h1 h2 (by decide), Traced.all_emit] at hall
  exact absurd (show 65535 ≤ BUFF_SIZE from hall.1) (by decide)

/-! ### All rounds -/

/-- What a later round has returned has been returned after this one as well. -/
theorem EnteredTwice.cons {pw1' pw2' : List Byte} {read : List Access} {a : Answer}
    (hagain : ∀ rs, askLoop pw1 pw2 (r :: rs) =
      ⟨read ++ (askLoop pw1' pw2' rs).events, (askLoop pw1' pw2' rs).result⟩)
    (h : EnteredTwice pw1' pw2' rs a) : EnteredTwice pw1 pw2 (r :: rs) a := by
  obtain ⟨earlier, last, later, line, hrs, hnone, hsome, hline⟩ := h
  refine ⟨r :: earlier, last, later, line, by rw [hrs]; rfl, ?_, ?_, hline⟩
  · rw [hagain]
    exact hnone
  · rw [List.cons_append, hagain]
    exact hsome

theorem askLoop_sound : ∀ (rounds : List Round) {pw1 pw2 : List Byte}, pw1.length = BUFF_SIZE →
    pw2.length = BUFF_SIZE → (∀ r ∈ rounds, r.Fits) → NeverBothFail rounds →
    (askLoop pw1 pw2 rounds).All Access.Inside ∧
      ∀ a, (askLoop pw1 pw2 rounds).result = some a → EnteredTwice pw1 pw2 rounds a
  | [], _, _, _, _, _, _ => ⟨Traced.all_stuck, fun _ h => by cases h⟩
  | r :: rs, pw1, pw2, h1, h2, hfits, ⟨hfail, hrest⟩ => by
    rcases again_or_returns h1 h2 (hfits r List.mem_cons_self) hfail with hagain | ⟨line, hline, hret⟩
    · obtain ⟨hno, pw1', pw2', read, h1', h2', hread, hloop⟩ := hagain
      have hrs : NeverBothFail rs := hrest.resolve_left fun ⟨line, h⟩ => hno line h
      obtain ⟨hall, hres⟩ := askLoop_sound rs h1' h2' (fun x hx => hfits x (List.mem_cons_of_mem _ hx)) hrs
      rw [hloop]
      exact ⟨fun a ha => (List.mem_append.mp ha).elim (hread a) (hall a), fun a ha => (hres a ha).cons hloop⟩
    · refine ⟨(hret rs).1, fun a ha => ⟨[], r, rs, line, rfl, rfl, ?_, hline, ?_⟩⟩
      · exact (hret []).2.trans ((hret rs).2.symm.trans ha)
      · obtain rfl := Option.some.inj ((hret rs).2.symm.trans ha)
        exact ⟨rfl, rfl, rfl⟩

theorem askLoop_leaves : ∀ (rounds : List Round) {pw1 pw2 : List Byte}, pw1.length = BUFF_SIZE →
    pw2.length = BUFF_SIZE → (∀ r ∈ rounds, r.Fits) → (askLoop pw1 pw2 rounds).All Access.Inside →
    NeverBothFail rounds
  | [], _, _, _, _, _, _ => trivial
  | r :: rs, pw1, pw2, h1, h2, hfits, hall => by
    have hfail : ¬ r.BothFail := fun hfail => askLoop_bothFail hfail hall
    refine ⟨hfail, ?_⟩
    rcases again_or_returns h1 h2 (hfits r List.mem_cons_self) hfail with hagain | ⟨line, hline, -⟩
    · obtain ⟨-, pw1', pw2', read, h1', h2', -, hloop⟩ := hagain
      rw [hloop] at hall
      exact Or.inr (askLoop_leaves rs h1' h2' (fun x hx => hfits x (List.mem_cons_of_mem _ hx))
        fun a ha => hall a (List.mem_append_right _ ha))
    · exact Or.inl ⟨line, hline⟩

end Rounds

/-- **A password that is accepted was entered twice, as long as no round fails
in both calls.** All reads stay inside the buffers, and what `askPassword`
returns is the line entered twice in the last round, of at least six
characters, with its terminator and its length, exactly if up to the round in
which that happens no round has two failures. -/
theorem askPassword_sound_iff (rounds : List Round) (hfits : ∀ r ∈ rounds, r.Fits) :
    ((askPassword rounds).All Access.Inside ∧
        ∀ a, (askPassword rounds).result = some a → EnteredTwice zeroFill zeroFill rounds a) ↔
      NeverBothFail rounds :=
  ⟨fun h => askLoop_leaves rounds length_zeroFill length_zeroFill hfits h.1,
    askLoop_sound rounds length_zeroFill length_zeroFill hfits⟩

/-- Two lines that are too short, a failure beside the line `secret`, and then
`secret` twice, the second time at the end of the input. -/
def sampleRounds : List Round :=
  [⟨some [97, 98, 10], some [97, 98, 10], [], []⟩,
    ⟨none, some [115, 101, 99, 114, 101, 116, 10], [], []⟩,
    ⟨some [115, 101, 99, 114, 101, 116, 10], some [115, 101, 99, 114, 101, 116], [], []⟩]

theorem askPassword_sound_sample :
    (askPassword sampleRounds).result = some ⟨[115, 101, 99, 114, 101, 116, 0], 6, true⟩ ∧
      (askPassword sampleRounds).All Access.Inside ∧
      ∀ a, (askPassword sampleRounds).result = some a → EnteredTwice zeroFill zeroFill sampleRounds a := by
  have hfits : ∀ r ∈ sampleRounds, r.Fits := by
    simp [sampleRounds, Round.Fits, BUFF_SIZE]
  have hnever : NeverBothFail sampleRounds := by
    refine ⟨by simp [Round.BothFail], Or.inr ⟨by simp [Round.BothFail],
      Or.inr ⟨by simp [Round.BothFail], Or.inl ?_⟩⟩⟩
    exact ⟨[115, 101, 99, 114, 101, 116], rfl, rfl, by decide⟩
  exact ⟨by decide +kernel, (askPassword_sound_iff sampleRounds hfits).mpr hnever⟩

/-- With no terminal to query both calls fail. If what stands behind the buffers
is the same, a password of 65535 bytes is accepted that nobody has entered. -/
theorem askPassword_nothing_entered : ∃ behind : List Byte,
    (askPassword [⟨none, none, behind, behind⟩]).events = [.memcmp 65535, .memcpy 65535] ∧
      ¬ (askPassword [⟨none, none, behind, behind⟩]).All Access.Inside ∧
      (askPassword [⟨none, none, behind, behind⟩]).result.map Answer.pw_length = some 65535 := by
  have h := fun behind =>
    @askLoop_compared zeroFill zeroFill ⟨none, none, behind, behind⟩ [] 65535 rfl rfl (by decide)
  refine ⟨List.replicate 64511 0, ?_, askLoop_bothFail ⟨rfl, rfl⟩, ?_⟩
  · rw [askPassword, h, if_pos rfl]
    rfl
  · rw [askPassword, h, if_pos rfl]
    rfl

end Password
end Threefizer
