import Mathlib.Tactic.IntervalCases
import MiddleEnd.Proofs.Json.Tokens

/-!
# MiddleEnd.Proofs.Json.Numerals

Cutting numbers into tokens.  However a number is written, it is one token
(`Json.tokensFrom_number`), and a whole number written with its decimal digits is read as itself if
it fits into 64 bits (`Json.numberDocument_repr`).

A number does not say where it ends; it takes a character that cannot belong to it
(`EndsNumber`), and every character that may stand behind a value is one.
-/

namespace MiddleEnd.Json

/-- What follows does not belong to a number that ends in a digit. -/
def EndsNumber (rest : List Char) : Prop :=
  ∀ c, rest.head? = some c → Numeral.digit? c = none ∧ c ≠ '.' ∧ c ≠ 'e' ∧ c ≠ 'E'

/-- A number ends with the text. -/
theorem EndsNumber.nil : EndsNumber [] := by simp [EndsNumber]

/-- A number ends in front of every sign that may follow a value. -/
theorem EndsNumber.sign {c : Char} (hc : c ∈ [',', ':', ']', '\x7d']) (rest : List Char) :
    EndsNumber (c :: rest) := by
  simp only [List.mem_cons, List.not_mem_nil, or_false] at hc
  rcases hc with rfl | rfl | rfl | rfl <;> simp [EndsNumber, Numeral.digit?]

theorem EndsNumber.comma (rest : List Char) : EndsNumber (',' :: rest) := .sign (by decide) rest

theorem EndsNumber.colon (rest : List Char) : EndsNumber (':' :: rest) := .sign (by decide) rest

theorem EndsNumber.closeArray (rest : List Char) : EndsNumber (']' :: rest) :=
  .sign (by decide) rest

theorem EndsNumber.closeObject (rest : List Char) : EndsNumber ('\x7d' :: rest) :=
  .sign (by decide) rest

/-- A number ends in front of blanks. -/
theorem EndsNumber.blanks {blanks rest : List Char} (hblanks : Blanks blanks)
    (hrest : EndsNumber rest) :
    EndsNumber (blanks ++ rest) := by
  cases blanks with
  | nil => exact hrest
  | cons c blanks =>
    have hc := hblanks c List.mem_cons_self
    simp only [List.mem_cons, List.not_mem_nil, or_false] at hc
    rcases hc with rfl | rfl | rfl | rfl <;> simp [EndsNumber, Numeral.digit?]

namespace Numeral

/-- The number becomes another one with the characters that follow. -/
def Takes (n : Numeral) (cs : List Char) (m : Numeral) : Prop :=
  ∀ rest, tokensFrom (.number n) (cs ++ rest) = tokensFrom (.number m) rest

section

variable {n m k : Numeral} {cs : List Char}

theorem Takes.nil (n : Numeral) : n.Takes [] n := fun _ => rfl

/-- What a number takes it takes character by character. -/
theorem Takes.cons {c : Char} (hc : n.next c = .grow m) (h : m.Takes cs k) :
    n.Takes (c :: cs) k := by
  intro rest
  rw [← h rest]
  simp [tokensFrom, LexState.step, LexState.stepNumber, hc]

/-- A number takes one text behind the other. -/
theorem Takes.append {cs' : List Char} (h : n.Takes cs m) (h' : m.Takes cs' k) :
    n.Takes (cs ++ cs') k := by
  intro rest
  rw [List.append_assoc, h, h']

end

/-- A digit takes a number from one part of it to another. -/
def DigitLeads (p q : Part) : Prop :=
  ∀ (n : Numeral) (d : Nat) (c : Char), n.part = p → digit? c = some d →
    ∃ m, n.next c = .grow m ∧ m.part = q

/-- Digits in front of a point do not leave the part they are in. -/
theorem digitLeads_whole : DigitLeads .whole .whole := by
  intro n d c hpart hdigit
  refine ⟨n.wholeDigit d, by simp [next, hpart, hdigit], ?_⟩
  unfold wholeDigit
  split <;> exact hpart

/-- Digits behind a point belong to the fraction. -/
theorem digitLeads_fraction {p : Part} (hp : p = .point ∨ p = .fraction) :
    DigitLeads p .fraction := by
  intro n d c hpart hdigit
  refine ⟨n.fractionDigit d, ?_, ?_⟩
  · rcases hp with rfl | rfl <;> simp [next, hpart, hdigit]
  · unfold fractionDigit
    split <;> rfl

/-- Digits behind the exponent's mark or sign belong to the exponent. -/
theorem digitLeads_exponent {p : Part} (hp : p = .mark ∨ p = .exponentSign ∨ p = .exponent) :
    DigitLeads p .exponent := by
  intro n d c hpart hdigit
  refine ⟨n.exponentDigit d, ?_, rfl⟩
  rcases hp with rfl | rfl | rfl <;> simp [next, hpart, hdigit]

/-- A digit stands for its distance from zero. -/
theorem digit?_of_isDigit {c : Char} (h : c.isDigit) : digit? c = some (c.toNat - '0'.toNat) := by
  simp only [Char.isDigit, Bool.and_eq_true, decide_eq_true_eq] at h
  exact if_pos (by simpa [Char.le_def] using h)

/-- Digits that all belong to the same part. -/
theorem exists_takes_more {p : Part} (hmore : DigitLeads p p) : ∀ {cs : List Char},
    (∀ c ∈ cs, c.isDigit) → ∀ {n : Numeral}, n.part = p → ∃ m, m.part = p ∧ n.Takes cs m
  | [], _, n, hn => ⟨n, hn, .nil n⟩
  | c :: cs, hcs, n, hn => by
    obtain ⟨k, hk, hkpart⟩ := hmore n _ c hn (digit?_of_isDigit (hcs c List.mem_cons_self))
    obtain ⟨m, hm, htakes⟩ := exists_takes_more hmore
      (fun d hd => hcs d (List.mem_cons_of_mem _ hd)) hkpart
    exact ⟨m, hm, .cons hk htakes⟩

/-- Digits behind a sign or a mark. -/
theorem exists_takes_digits {p q : Part} (hfirst : DigitLeads p q) (hmore : DigitLeads q q)
    {cs : List Char} (hcs : Digits cs) {n : Numeral} (hn : n.part = p) :
    ∃ m, m.part = q ∧ n.Takes cs m := by
  obtain ⟨hne, hdigits⟩ := hcs
  obtain ⟨c, cs, rfl⟩ := List.exists_cons_of_ne_nil hne
  obtain ⟨k, hk, hkpart⟩ := hfirst n _ c hn (digit?_of_isDigit (hdigits c List.mem_cons_self))
  obtain ⟨m, hm, htakes⟩ := exists_takes_more hmore
    (fun d hd => hdigits d (List.mem_cons_of_mem _ hd)) hkpart
  exact ⟨m, hm, .cons hk htakes⟩

/-- A point and digits, behind the whole part. -/
theorem exists_takes_fraction {cs : List Char} (hcs : FractionPart cs) {n : Numeral}
    (hn : n.part = .zero ∨ n.part = .whole) :
    ∃ m, (m.part = .zero ∨ m.part = .whole ∨ m.part = .fraction) ∧ n.Takes cs m := by
  obtain rfl | ⟨digits, hdigits, rfl⟩ := hcs
  · exact ⟨n, hn.imp_right .inl, .nil n⟩
  · have hpoint : n.next '.' = .grow { n with part := .point, full := false } := by
      rcases hn with hn | hn <;> simp [next, hn, digit?]
    obtain ⟨m, hm, htakes⟩ := exists_takes_digits (digitLeads_fraction (.inl rfl))
      (digitLeads_fraction (.inr rfl)) hdigits (n := { n with part := .point, full := false }) rfl
    exact ⟨m, .inr (.inr hm), .cons hpoint htakes⟩

/-- The rest of a number. -/
theorem exists_takes_exponent {cs : List Char} (hcs : ExponentPart cs) {n : Numeral}
    (hn : n.part = .zero ∨ n.part = .whole ∨ n.part = .fraction) :
    ∃ m, m.isComplete = true ∧ n.Takes cs m := by
  obtain rfl | ⟨mark, hmark, sign, hsign, digits, hdigits, rfl⟩ := hcs
  · refine ⟨n, ?_, .nil n⟩
    rcases hn with hn | hn | hn <;> simp [isComplete, hn]
  have hmarked : n.next mark = .grow n.marked := by
    simp only [List.mem_cons, List.not_mem_nil, or_false] at hmark
    rcases hmark with rfl | rfl <;> rcases hn with hn | hn | hn <;> simp [next, hn, digit?]
  have hcomplete : ∀ {p : Part} {k : Numeral}, (p = .mark ∨ p = .exponentSign) → k.part = p →
      ∃ m, m.isComplete = true ∧ k.Takes digits m := by
    intro p k hp hk
    obtain ⟨m, hm, htakes⟩ := exists_takes_digits (digitLeads_exponent (hp.imp_right .inl))
      (digitLeads_exponent (.inr (.inr rfl))) hdigits hk
    exact ⟨m, by simp [isComplete, hm], htakes⟩
  simp only [List.mem_cons, List.not_mem_nil, or_false] at hsign
  rcases hsign with rfl | rfl | rfl
  · obtain ⟨m, hm, htakes⟩ := hcomplete (.inl rfl) (k := n.marked) rfl
    exact ⟨m, hm, .cons hmarked htakes⟩
  · obtain ⟨m, hm, htakes⟩ :=
      hcomplete (.inr rfl) (k := { n.marked with part := .exponentSign }) rfl
    exact ⟨m, hm, .cons hmarked (.cons rfl htakes)⟩
  · obtain ⟨m, hm, htakes⟩ := hcomplete (.inr rfl)
      (k := { n.marked with part := .exponentSign, exponentNegative := true }) rfl
    exact ⟨m, hm, .cons hmarked (.cons rfl htakes)⟩

end Numeral


namespace Numeral

/-- The whole part is a first digit and what the number becomes with the others. -/
theorem exists_takes_whole {cs : List Char} (hcs : WholePart cs) (negative : Bool) :
    ∃ c d rest m, cs = c :: rest ∧ digit? c = some d ∧ (first negative d).Takes rest m ∧
      (m.part = .zero ∨ m.part = .whole) := by
  obtain rfl | ⟨⟨hne, hdigits⟩, hzero⟩ := hcs
  · exact ⟨'0', 0, [], _, rfl, rfl, .nil _, .inl rfl⟩
  · obtain ⟨c, cs, rfl⟩ := List.exists_cons_of_ne_nil hne
    have hc := hdigits c List.mem_cons_self
    have hpositive : c.toNat - '0'.toNat ≠ 0 := by
      have hlow : '0'.val ≤ c.val := by
        simp only [Char.isDigit, Bool.and_eq_true, decide_eq_true_eq] at hc
        exact hc.1
      have hother : c.toNat ≠ '0'.toNat := fun h =>
        hzero (by rw [List.head?_cons, Char.toNat_inj.mp h])
      have hle : '0'.toNat ≤ c.toNat := hlow
      omega
    obtain ⟨m, hm, htakes⟩ := exists_takes_more digitLeads_whole
      (fun d hd => hdigits d (List.mem_cons_of_mem _ hd))
      (n := first negative (c.toNat - '0'.toNat)) (if_neg hpositive)
    exact ⟨c, _, cs, m, rfl, digit?_of_isDigit hc, htakes, .inr hm⟩

end Numeral

/-- A digit starts a number. -/
theorem start_of_digit? {c : Char} {d : Nat} (h : Numeral.digit? c = some d) :
    LexState.start c = ([], .number (.first false d)) := by
  unfold LexState.start
  split
  case h_16 => simp only [h]
  all_goals cases h

/-- A number is read to its last character, whatever follows. -/
theorem exists_numeral {cs : List Char} (h : NumberText cs) : ∃ n : Numeral, n.isComplete = true ∧
    ∀ rest, tokensFrom .between (cs ++ rest) = tokensFrom (.number n) rest := by
  obtain ⟨hsign, hwhole, hfraction, hexponent⟩ := h
  have hparts : ∀ {m : Numeral}, m.part = .zero ∨ m.part = .whole → ∃ n, n.isComplete = true ∧
      m.Takes (_ ++ _) n := fun hm =>
    have ⟨k, hk, hkt⟩ := Numeral.exists_takes_fraction hfraction hm
    have ⟨n, hn, hnt⟩ := Numeral.exists_takes_exponent hexponent hk
    ⟨n, hn, hkt.append hnt⟩
  obtain rfl | rfl := hsign
  · obtain ⟨c, d, rest, m, rfl, hd, htakes, hm⟩ := Numeral.exists_takes_whole hwhole false
    obtain ⟨n, hn, hnt⟩ := hparts hm
    refine ⟨n, hn, fun tail => ?_⟩
    rw [← (htakes.append hnt) tail]
    simp [tokensFrom, LexState.step, start_of_digit? hd]
  · obtain ⟨c, d, rest, m, rfl, hd, htakes, hm⟩ := Numeral.exists_takes_whole hwhole true
    obtain ⟨n, hn, hnt⟩ := hparts hm
    have hnext : Numeral.minus.next c = .grow (.first true d) := by
      simp [Numeral.next, Numeral.minus, hd]
    refine ⟨n, hn, fun tail => ?_⟩
    rw [← (Numeral.Takes.cons hnext (htakes.append hnt)) tail]
    simp [tokensFrom, LexState.step, LexState.start]

/-- A number ends where a character follows that does not belong to it. -/
theorem tokensFrom_end {n : Numeral} (hn : n.isComplete = true) {rest : List Char}
    (hrest : EndsNumber rest) :
    tokensFrom (.number n) rest = LexState.numberToken n :: tokensFrom .between rest := by
  cases rest with
  | nil => simp [tokensFrom, LexState.finish, hn]
  | cons c rest =>
    obtain ⟨hdigit, hpoint, hsmall, hlarge⟩ := hrest c rfl
    have hnext : n.next c = .stop := by
      cases hpart : n.part <;>
        simp [Numeral.isComplete, Numeral.next, hpart, hdigit, hpoint, hsmall, hlarge] at hn ⊢
    simp [tokensFrom, LexState.step, LexState.stepNumber, hnext]

/-- A number is one token, and a value by itself. -/
theorem tokensFrom_number {cs : List Char} (h : NumberText cs) : ∃ t,
    Reader.leaf? t = some (numberDocument cs) ∧
      ∀ {rest}, EndsNumber rest →
        tokensFrom .between (cs ++ rest) = t :: tokensFrom .between rest := by
  obtain ⟨n, hn, hcut⟩ := exists_numeral h
  have hnumber : ∀ {rest}, EndsNumber rest → tokensFrom .between (cs ++ rest) =
      LexState.numberToken n :: tokensFrom .between rest := fun hrest =>
    (hcut _).trans (tokensFrom_end hn hrest)
  refine ⟨LexState.numberToken n, ?_, hnumber⟩
  have htokens : tokens cs = [LexState.numberToken n] := by
    rw [tokens_eq, ← List.append_nil cs, hnumber .nil]
    rfl
  rw [numberDocument, htokens]
  unfold LexState.numberToken
  cases n.value? <;> rfl

/-! ## Whole numbers

A whole number is written with its decimal digits, and read as itself if it fits into 64 bits. -/

/-- A whole number of which all digits were kept. -/
def Numeral.ofNat (negative : Bool) (n : Nat) : Numeral :=
  ⟨negative, if n = 0 then .zero else .whole, n, false, 0, false, 0⟩

/-- A number that is read as it was written. -/
def Exact (n : Int) : Prop := -2 ^ 63 ≤ n ∧ n < 2 ^ 64

section

variable {n : Nat}

/-- A number of which all digits were taken may end. -/
theorem Numeral.isComplete_ofNat (negative : Bool) (n : Nat) :
    (ofNat negative n).isComplete = true := by
  by_cases hn : n = 0 <;> simp [ofNat, isComplete, hn]

/-- One more digit of a number. -/
theorem Numeral.next_ofNat (negative : Bool) {d : Nat} (hn : 0 < n) (hd : d < 10)
    (hfits : n * 10 + d < 2 ^ 64) :
    (ofNat negative n).next d.digitChar = .grow (ofNat negative (n * 10 + d)) := by
  have hall : ∀ d < 10, digit? (Nat.digitChar d) = some d := by decide
  have hne : n ≠ 0 := by omega
  have hne' : n * 10 + d ≠ 0 := by omega
  have hsize : n * 10 + d < UInt64.size := hfits
  simp only [ofNat, next, hall d hd, wholeDigit, extended?, hne, hne', hsize, if_false,
    Bool.not_false, Bool.true_and, decide_true, if_true]

/-- The first digit of a number. -/
theorem tokensFrom_firstDigit (hn : n < 10) (rest : List Char) :
    tokensFrom .between (n.digitChar :: rest) = tokensFrom (.number (.ofNat false n)) rest ∧
      tokensFrom (.number .minus) (n.digitChar :: rest) =
        tokensFrom (.number (.ofNat true n)) rest := by
  interval_cases n <;> exact ⟨rfl, rfl⟩

/-- The digits of a number, from its beginning to its end. -/
theorem tokensFrom_digits : ∀ {n : Nat}, n < 2 ^ 64 → ∀ rest,
    tokensFrom .between (Nat.toDigits 10 n ++ rest) = tokensFrom (.number (.ofNat false n)) rest ∧
      tokensFrom (.number .minus) (Nat.toDigits 10 n ++ rest) =
        tokensFrom (.number (.ofNat true n)) rest := by
  intro n
  induction n using Nat.strongRecOn with
  | ind n ih =>
    intro hfits rest
    by_cases hn : n < 10
    · rw [Nat.toDigits_of_lt_base hn]
      exact tokensFrom_firstDigit hn rest
    · obtain ⟨hplus, hminus⟩ := ih (n / 10) (by omega) (by omega) ((n % 10).digitChar :: rest)
      have hdigit : ∀ negative, tokensFrom (.number (.ofNat negative (n / 10)))
          ((n % 10).digitChar :: rest) = tokensFrom (.number (.ofNat negative n)) rest := by
        intro negative
        have hnext := Numeral.next_ofNat negative (n := n / 10) (d := n % 10)
          (by omega) (by omega) (by omega)
        rw [show n / 10 * 10 + n % 10 = n by omega] at hnext
        exact Numeral.Takes.cons hnext (.nil _) rest
      rw [Nat.toDigits_of_base_le (by decide) (by omega), List.append_assoc,
        List.singleton_append, hplus, hminus, hdigit, hdigit]
      exact ⟨rfl, rfl⟩

/-- The decimal digits of a number are a whole part. -/
theorem wholePart_toDigits (n : Nat) : WholePart (Nat.toDigits 10 n) := by
  have hhead : ∀ n, 0 < n → (Nat.toDigits 10 n).head? ≠ some '0' := by
    intro n
    induction n using Nat.strongRecOn with
    | ind n ih =>
      intro hpos
      by_cases hn : n < 10
      · rw [Nat.toDigits_of_lt_base hn]
        interval_cases n <;> decide
      · obtain ⟨c, cs, hcs⟩ :=
          List.exists_cons_of_ne_nil (Nat.toDigits_ne_nil (b := 10) (n := n / 10))
        have hlead := ih (n / 10) (by omega) (by omega)
        rw [hcs] at hlead
        rwa [Nat.toDigits_of_base_le (by decide) (by omega), hcs]
  rcases Nat.eq_zero_or_pos n with rfl | hpos
  · exact .inl rfl
  · have hdigits : ∀ c ∈ Nat.toDigits 10 n, c.isDigit = true :=
      fun _ hc => Nat.isDigit_of_mem_toDigits (by decide) (by decide) hc
    exact .inr ⟨⟨Nat.toDigits_ne_nil, hdigits⟩, hhead n hpos⟩

/-- A number without a sign is the number of its digits. -/
theorem numberToken_ofNat (n : Nat) :
    LexState.numberToken (.ofNat false n) = .number (.whole n) := by
  by_cases h : n = 0 <;>
    simp [LexState.numberToken, Numeral.value?, Numeral.ofNat, Numeral.isWhole, h]

/-- A number with a sign is the negative of its digits' number, down to the least one of 64 bits. -/
theorem numberToken_negative (hpos : 0 < n) (hn : n ≤ 2 ^ 63) :
    LexState.numberToken (.ofNat true n) = .number (.whole (-n)) := by
  have hne : n ≠ 0 := by omega
  have hfits : n ≤ Nat.pow 2 63 := hn
  simp only [LexState.numberToken, Numeral.value?, Numeral.ofNat, Numeral.isWhole, hne, hpos, hfits,
    if_false, if_true, Bool.not_false, Bool.and_self, decide_true]

theorem repr_ofNat (n : Nat) : (Int.ofNat n).repr.toList = Nat.toDigits 10 n := by
  simp [Int.repr, Nat.repr]

theorem repr_negSucc (n : Nat) : (Int.negSucc n).repr.toList = '-' :: Nat.toDigits 10 (n + 1) := by
  simp [Int.repr, Nat.repr]

end

theorem numberText_repr (n : Int) : NumberText n.repr.toList := by
  have hparts : ∀ {sign} (m : Nat), sign = [] ∨ sign = ['-'] →
      NumberText (sign ++ Nat.toDigits 10 m) := by
    intro sign m hsign
    have h := NumberText.parts hsign (wholePart_toDigits m) (.inl rfl) (.inl rfl)
    rwa [List.append_nil, List.append_nil] at h
  cases n with
  | ofNat n => exact repr_ofNat n ▸ hparts n (.inl rfl)
  | negSucc n => exact repr_negSucc n ▸ hparts (n + 1) (.inr rfl)

/-- A whole number that fits is read back from its decimal digits. -/
theorem numberDocument_repr {n : Int} (hn : Exact n) :
    numberDocument n.repr.toList = .number (.whole n) := by
  obtain ⟨hlow, hhigh⟩ := hn
  have htokens : tokens n.repr.toList = [.number (.whole n)] := by
    rw [tokens_eq, ← List.append_nil n.repr.toList]
    cases n with
    | ofNat n =>
      have hfits : n < 2 ^ 64 := by
        change (n : Int) < 2 ^ 64 at hhigh
        omega
      rw [repr_ofNat, (tokensFrom_digits hfits []).1,
        tokensFrom_end (Numeral.isComplete_ofNat _ _) .nil, numberToken_ofNat]
      rfl
    | negSucc n =>
      have hsign : ∀ cs, tokensFrom .between ('-' :: cs) = tokensFrom (.number .minus) cs :=
        fun _ => rfl
      rw [repr_negSucc, List.cons_append, hsign, (tokensFrom_digits (by omega) []).2,
        tokensFrom_end (Numeral.isComplete_ofNat _ _) .nil,
        numberToken_negative (by omega) (by omega)]
      rfl
  rw [numberDocument, htokens]

end MiddleEnd.Json
