import MiddleEnd.Proofs.Json.Grammar

/-!
# MiddleEnd.Proofs.Json.Tokens

Cutting signs, blanks, words and texts into tokens.  Each is cut alike whatever follows it, and
cutting goes on between two tokens.  However a text is written, it becomes one token that holds it
(`Json.tokensFrom_text`).
-/

namespace MiddleEnd.Json

/-- The tokens of what follows, from a state on. -/
def tokensFrom (state : LexState) : List Char → List Token
  | [] => state.finish
  | c :: rest => (state.step c).1 ++ tokensFrom (state.step c).2 rest

/-- A lexer that was fed part of a text goes on as one that starts in its state. -/
theorem tokens_foldl (text : List Char) : ∀ l : Lexer,
    (text.foldl Lexer.feed l).tokens = l.done.reverse ++ tokensFrom l.state text := by
  induction text with
  | nil => exact fun _ => rfl
  | cons c text ih =>
    intro l
    rw [List.foldl_cons, ih]
    simp [Lexer.feed, tokensFrom, List.reverseAux_eq]

/-- The tokens of a text are those found from the state between tokens. -/
theorem tokens_eq (text : List Char) : tokens text = tokensFrom .between text :=
  tokens_foldl text .start

/-! ## Signs and words -/

section

variable (rest : List Char)

/-- A bracket is a token of its own, like the other signs. -/
@[simp] theorem tokensFrom_openArray :
    tokensFrom .between ('[' :: rest) = .openArray :: tokensFrom .between rest := rfl

@[simp] theorem tokensFrom_closeArray :
    tokensFrom .between (']' :: rest) = .closeArray :: tokensFrom .between rest := rfl

@[simp] theorem tokensFrom_openObject :
    tokensFrom .between ('\x7b' :: rest) = .openObject :: tokensFrom .between rest := rfl

@[simp] theorem tokensFrom_closeObject :
    tokensFrom .between ('\x7d' :: rest) = .closeObject :: tokensFrom .between rest := rfl

@[simp] theorem tokensFrom_comma :
    tokensFrom .between (',' :: rest) = .comma :: tokensFrom .between rest := rfl

@[simp] theorem tokensFrom_colon :
    tokensFrom .between (':' :: rest) = .colon :: tokensFrom .between rest := rfl

/-- The word `null` is one token, whatever follows it. -/
@[simp] theorem tokensFrom_null :
    tokensFrom .between (nullChars ++ rest) = .null :: tokensFrom .between rest := rfl

/-- A truth value is one token, whatever follows it. -/
@[simp] theorem tokensFrom_bool (b : Bool) :
    tokensFrom .between (boolChars b ++ rest) = .bool b :: tokensFrom .between rest := by
  cases b <;> rfl

/-- Between tokens blanks count for nothing. -/
theorem tokensFrom_blanks {blanks : List Char} (h : Blanks blanks) :
    tokensFrom .between (blanks ++ rest) = tokensFrom .between rest := by
  induction blanks with
  | nil => rfl
  | cons c blanks ih =>
    have hc : tokensFrom .between (c :: (blanks ++ rest)) =
        tokensFrom .between (blanks ++ rest) := by
      have hblank := h c List.mem_cons_self
      simp only [List.mem_cons, List.not_mem_nil, or_false] at hblank
      rcases hblank with rfl | rfl | rfl | rfl <;> rfl
    rw [List.cons_append, hc, ih fun d hd => h d (List.mem_cons_of_mem _ hd)]

end

/-! ## Texts -/

section

variable (chars rest : List Char)

/-- Hexadecimal digits are characters of one byte. -/
theorem utf8Size_of_hexDigit? {c : Char} {d : Nat} (h : LexState.hexDigit? c = some d) :
    c.utf8Size = 1 := by
  have hsmall : c ≤ 'f' := by
    unfold LexState.hexDigit? Numeral.digit? at h
    split at h
    · simp_all
    · split at h
      · next hc =>
        simp only [Bool.and_eq_true, decide_eq_true_eq] at hc
        exact Char.le_trans hc.2 (by decide)
      · split at h
        · next hc =>
          simp only [Bool.and_eq_true, decide_eq_true_eq] at hc
          exact Char.le_trans hc.2 (by decide)
        · cases h
  have hval : c.val ≤ 0x7f := UInt32.le_trans hsmall (by decide)
  simp [Char.utf8Size, hval]

/-- One more digit of the number of a character, of which others are missing. -/
theorem tokensFrom_hexDigit {c : Char} {d : Nat} (h : LexState.hexDigit? c = some d)
    (lead : Option Nat) (value missing : Nat) :
    tokensFrom (.text chars true (.code lead value (missing + 2) true)) (c :: rest) =
      tokensFrom (.text chars true (.code lead (value * 16 + d) (missing + 1) true)) rest := by
  simp [tokensFrom, LexState.step, LexState.stepText, h, utf8Size_of_hexDigit? h]

/-- The last digit of the number of a character. -/
theorem tokensFrom_lastHexDigit {c : Char} {d : Nat} (h : LexState.hexDigit? c = some d)
    (lead : Option Nat) (value : Nat) :
    tokensFrom (.text chars true (.code lead value 1 true)) (c :: rest) =
      tokensFrom (LexState.stepCode chars true lead (value * 16 + d)) rest := by
  simp [tokensFrom, LexState.step, LexState.stepText, h, utf8Size_of_hexDigit? h]

/-- All digits of the number of a character. -/
theorem tokensFrom_code {n : Nat} {cs : List Char} (h : SpellsCode n cs) (lead : Option Nat) :
    tokensFrom (.text chars true (.code lead 0 4 true)) (cs ++ rest) =
      tokensFrom (LexState.stepCode chars true lead n) rest := by
  obtain ⟨ha, hb, hc, hd⟩ := h
  simp only [List.cons_append, List.nil_append]
  rw [tokensFrom_hexDigit _ _ ha, tokensFrom_hexDigit _ _ hb, tokensFrom_hexDigit _ _ hc,
    tokensFrom_lastHexDigit _ _ hd, Nat.zero_mul, Nat.zero_add]

/-- However a character is written, it is read as itself. -/
theorem tokensFrom_char {c : Char} {cs : List Char} (h : SpellsChar c cs) :
    tokensFrom (.text chars true .plain) (cs ++ rest) =
      tokensFrom (.text (c :: chars) true .plain) rest := by
  have hstart : ∀ cs, tokensFrom (.text chars true .plain) ('\\' :: 'u' :: cs) =
      tokensFrom (.text chars true (.code none 0 4 true)) cs := fun _ => rfl
  have hsecond : ∀ lead cs, tokensFrom (.text chars true (.half lead)) ('\\' :: 'u' :: cs) =
      tokensFrom (.text chars true (.code (some lead) 0 4 true)) cs := fun _ _ => rfl
  cases h with
  | itself hquote hslash hc =>
    simp [tokensFrom, LexState.step, LexState.stepText, LexState.stepPlain, hquote, hslash,
      Nat.not_lt.mpr hc]
  | short h =>
    simp only [shortEscapes, List.mem_cons, Prod.mk.injEq, List.not_mem_nil, or_false] at h
    rcases h with ⟨rfl, rfl⟩ | ⟨rfl, rfl⟩ | ⟨rfl, rfl⟩ | ⟨rfl, rfl⟩ | ⟨rfl, rfl⟩ | ⟨rfl, rfl⟩ |
      ⟨rfl, rfl⟩ | ⟨rfl, rfl⟩ <;> rfl
  | @code n cs hcs hn =>
    have htrail : LexState.isTrail n = false := by
      simp only [LexState.isTrail, Bool.and_eq_false_imp, decide_eq_true_eq,
        decide_eq_false_iff_not]
      omega
    have hlead : LexState.isLead n = false := by
      simp only [LexState.isLead, Bool.and_eq_false_imp, decide_eq_true_eq, decide_eq_false_iff_not]
      omega
    simp only [List.cons_append]
    rw [hstart, tokensFrom_code _ _ hcs]
    simp [LexState.stepCode, htrail, hlead]
  | @pair lead trail cs cs' hcs hlead hcs' htrail =>
    have hfirst : LexState.stepCode chars true none lead = .text chars true (.half lead) := by
      have hnot : ¬(0xDC00 ≤ lead) := by omega
      simp [LexState.stepCode, LexState.isTrail, LexState.isLead, hlead, hnot]
    have hlast : LexState.stepCode chars true (some lead) trail =
        .text (LexState.paired lead trail :: chars) true .plain := by
      simp [LexState.stepCode, LexState.isTrail, htrail]
    simp only [List.cons_append, List.append_assoc]
    rw [hstart, tokensFrom_code _ _ hcs, hfirst, hsecond, tokensFrom_code _ _ hcs', hlast]
    rfl

/-- A text between quotes is one token. -/
theorem tokensFrom_text {text : String} {cs : List Char} (h : SpellsText text cs) :
    tokensFrom .between (cs ++ rest) = .text text :: tokensFrom .between rest := by
  have hchars : ∀ {cs written}, SpellsChars cs written → ∀ chars,
      tokensFrom (.text chars true .plain) (written ++ '"' :: rest) =
        .text (String.ofList (chars.reverse ++ cs)) :: tokensFrom .between rest := by
    intro cs written hcs
    induction hcs with
    | nil =>
      simp [tokensFrom, LexState.step, LexState.stepText, LexState.stepPlain, LexState.textToken]
    | cons hc _ ih =>
      intro chars
      rw [List.append_assoc, tokensFrom_char _ _ hc, ih]
      simp
  obtain ⟨hcs⟩ := h
  have hopen : ∀ cs, tokensFrom .between ('"' :: cs) = tokensFrom (.text [] true .plain) cs :=
    fun _ => rfl
  simp only [List.cons_append, List.append_assoc, List.nil_append]
  rw [hopen, hchars hcs]
  simp

end

end MiddleEnd.Json
