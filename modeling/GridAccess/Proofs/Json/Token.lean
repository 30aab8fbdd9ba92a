import GridAccess.Json.Printer
import GridAccess.Json.Token
import Mathlib.Tactic.SplitIfs

/-!
Written strings and numbers are single words: reading them gives back what was written and stops
where it ended. Text is split into its words one after the other, with any white space between them.
-/

namespace GridAccess.Json

/-! ### Strings -/

theorem hexDigit?_hexDigit : ∀ n < 16, hexDigit? (hexDigit n) = some n := by decide

theorem stringUnits?_escape {a b c d : Char} {rest after : List Char} {n : Nat} {units : List Nat}
    (hn : hex4? a b c d = some n) (h : stringUnits? rest = some (units, after)) :
    stringUnits? ('\\' :: 'u' :: a :: b :: c :: d :: rest) = some (n :: units, after) := by
  simp [stringUnits?, hn, h]

theorem stringUnits?_shortEscape {c e : Char} {rest after : List Char} {units : List Nat}
    (hc : c ≠ 'u') (he : shortEscape? c = some e) (h : stringUnits? rest = some (units, after)) :
    stringUnits? ('\\' :: c :: rest) = some (e.toNat :: units, after) := by
  rw [stringUnits?]
  · simp [he, h]
  · simp [hc]

theorem stringUnits?_plain {c : Char} {rest after : List Char} {units : List Nat}
    (hquote : c ≠ '"') (hbackslash : c ≠ '\\') (hcontrol : ¬ c.toNat < 32)
    (h : stringUnits? rest = some (units, after)) :
    stringUnits? (c :: rest) = some (c.toNat :: units, after) := by
  rw [stringUnits?]
  · simp [hbackslash, hcontrol, h]
  · exact hquote
  · simp [hbackslash]
  · simp [hbackslash]

theorem escaped_cases (c : Char) :
    (∃ e, escaped c = ['\\', e] ∧ e ≠ 'u' ∧ shortEscape? e = some c) ∨
    (c.toNat < 32 ∧ escaped c =
      ['\\', 'u', '0', '0', hexDigit (c.toNat / 16), hexDigit (c.toNat % 16)]) ∨
    (c ≠ '"' ∧ c ≠ '\\' ∧ ¬ c.toNat < 32 ∧ escaped c = [c]) := by
  unfold escaped
  split_ifs with hquote hb ht hn hf hr hcontrol
  · have hc : c = '"' ∨ c = '\\' := by simpa using hquote
    rcases hc with rfl | rfl
    · exact .inl ⟨_, rfl, by decide, rfl⟩
    · exact .inl ⟨_, rfl, by decide, rfl⟩
  · exact .inl ⟨_, rfl, by decide, hb ▸ rfl⟩
  · exact .inl ⟨_, rfl, by decide, ht ▸ rfl⟩
  · exact .inl ⟨_, rfl, by decide, hn ▸ rfl⟩
  · exact .inl ⟨_, rfl, by decide, hf ▸ rfl⟩
  · exact .inl ⟨_, rfl, by decide, hr ▸ rfl⟩
  · exact .inr (.inl ⟨hcontrol, rfl⟩)
  · have hc : c ≠ '"' ∧ c ≠ '\\' := by simpa using hquote
    exact .inr (.inr ⟨hc.1, hc.2, hcontrol, rfl⟩)

theorem hex4?_hexDigit {n : Nat} (h : n < 32) :
    hex4? '0' '0' (hexDigit (n / 16)) (hexDigit (n % 16)) = some n := by
  simp only [hex4?, hexDigit?_hexDigit (n / 16) (by omega),
    hexDigit?_hexDigit (n % 16) (Nat.mod_lt n (by decide)), show hexDigit? '0' = some 0 from rfl,
    Option.bind_eq_bind, Option.bind_some, Option.some.injEq]
  omega

theorem stringUnits?_escaped (c : Char) {rest after : List Char} {units : List Nat}
    (h : stringUnits? rest = some (units, after)) :
    stringUnits? (escaped c ++ rest) = some (c.toNat :: units, after) := by
  rcases escaped_cases c with ⟨e, hc, hu, he⟩ | ⟨hcontrol, hc⟩ | ⟨hquote, hbackslash, hcontrol, hc⟩
  · exact hc ▸ stringUnits?_shortEscape hu he h
  · exact hc ▸ stringUnits?_escape (hex4?_hexDigit hcontrol) h
  · exact hc ▸ stringUnits?_plain hquote hbackslash hcontrol h

theorem stringUnits?_flatMap_escaped (cs rest : List Char) :
    stringUnits? (cs.flatMap escaped ++ '"' :: rest) = some (cs.map Char.toNat, rest) := by
  induction cs with
  | nil => rfl
  | cons c cs ih =>
      rw [List.flatMap_cons, List.append_assoc]
      exact stringUnits?_escaped c ih

/-- Characters are no halves of surrogate pairs. -/
theorem not_isHigh_not_isLow (c : Char) : isHigh c.toNat = false ∧ isLow c.toNat = false := by
  have hvalid : c.toNat < 0xd800 ∨ 0xdfff < c.toNat ∧ c.toNat < 0x110000 := c.valid
  simp only [isHigh, isLow, Bool.and_eq_false_iff, decide_eq_false_iff_not]
  omega

theorem joinPairs?_map_toNat (cs : List Char) : joinPairs? (cs.map Char.toNat) = some cs := by
  induction cs with
  | nil => rfl
  | cons c cs ih =>
      obtain ⟨hhigh, hlow⟩ := not_isHigh_not_isLow c
      cases cs with
      | nil => simp [joinPairs?, hhigh, hlow]
      | cons d cs =>
          rw [List.map_cons] at ih
          simp [joinPairs?, hhigh, hlow, ih]

theorem token?_stringChars (s : String) (rest : List Char) :
    token? (stringChars (some s) ++ rest) = some (.str (some s), rest) := by
  show string? (s.toList.flatMap escaped ++ ['"'] ++ rest) = _
  rw [List.append_assoc, List.singleton_append, string?, stringUnits?_flatMap_escaped]
  simp [joinPairs?_map_toNat]

/-! ### Numbers -/

theorem digitChar_ne_zero : ∀ n < 10, 0 < n → n.digitChar ≠ '0' := by decide

theorem head?_toDigits_ne_zero {n : Nat} (h : 0 < n) : (Nat.toDigits 10 n).head? ≠ some '0' := by
  induction n using Nat.strongRecOn with
  | ind n ih =>
      by_cases hn : n < 10
      · rw [Nat.toDigits_of_lt_base hn]
        simpa using digitChar_ne_zero n hn h
      · rw [Nat.toDigits_of_base_le (by decide) (by omega)]
        have hhead := ih (n / 10) (by omega) (by omega)
        obtain ⟨c, cs, hcs⟩ := List.exists_cons_of_ne_nil (Nat.toDigits_ne_nil (b := 10))
        rw [hcs] at hhead ⊢
        exact hhead

theorem natOfDigits_toDigits (n : Nat) : natOfDigits (Nat.toDigits 10 n) = n := by
  refine Eq.trans ?_ (Nat.ofDigitChars_ten_toDigits (n := n))
  simp only [natOfDigits, Nat.ofDigitChars, Nat.mul_comm]
  rfl

/-- What follows a number does not continue it. -/
def EndsNumber (cs : List Char) : Prop :=
  ∀ c, cs.head? = some c → c.isDigit = false ∧ c ≠ '.' ∧ c ≠ 'e' ∧ c ≠ 'E'

theorem EndsNumber.cons {c : Char} (cs : List Char)
    (h : c.isDigit = false ∧ c ≠ '.' ∧ c ≠ 'e' ∧ c ≠ 'E') : EndsNumber (c :: cs) := by
  intro d hd
  obtain rfl := Option.some.inj hd
  exact h

theorem digits?_append {run rest : List Char} (hne : run ≠ []) (hrun : ∀ c ∈ run, c.isDigit = true)
    (hrest : EndsNumber rest) : digits? (run ++ rest) = some (run, rest) := by
  have htake : rest.takeWhile Char.isDigit = [] := by
    cases rest with
    | nil => rfl
    | cons c rest => simp [(hrest c rfl).1]
  have hdrop : rest.dropWhile Char.isDigit = rest := by
    cases rest with
    | nil => rfl
    | cons c rest => simp [(hrest c rfl).1]
  unfold digits?
  rw [List.takeWhile_append_of_pos hrun, List.dropWhile_append_of_pos hrun, htake, hdrop]
  simp [hne]

theorem integer?_toDigits (n : Nat) {rest : List Char} (hrest : EndsNumber rest) :
    integer? (Nat.toDigits 10 n ++ rest) = some (Nat.toDigits 10 n, rest) := by
  by_cases hn : n = 0
  · subst hn
    rfl
  · have hne := Nat.toDigits_ne_nil (b := 10) (n := n)
    have hhead := head?_toDigits_ne_zero (Nat.pos_of_ne_zero hn)
    have hdigits := digits?_append hne
      (fun c hc => Nat.isDigit_of_mem_toDigits (by decide) (by decide) hc) hrest
    obtain ⟨c, cs, hcs⟩ := List.exists_cons_of_ne_nil hne
    rw [hcs] at hhead hdigits ⊢
    rw [List.cons_append, integer?]
    · exact hdigits
    · intro cs' hcons
      exact hhead (congrArg some (List.cons.inj hcons).1)

theorem unsigned?_toDigits (n : Nat) {rest : List Char} (hrest : EndsNumber rest) :
    unsigned? (Nat.toDigits 10 n ++ rest) = some (Nat.toDigits 10 n, [], rest) := by
  have hfraction : fraction? rest = some ([], rest) := by
    cases rest with
    | nil => rfl
    | cons c rest =>
        obtain ⟨-, hpoint, -⟩ := hrest c rfl
        rw [fraction?]
        intro cs hcons
        exact hpoint (List.cons.inj hcons).1
  have hexponent : exponent? rest = some ([], rest) := by
    cases rest with
    | nil => rfl
    | cons c rest =>
        obtain ⟨-, -, he⟩ := hrest c rfl
        simp [exponent?, he]
  simp [unsigned?, integer?_toDigits n hrest, hfraction, hexponent]

theorem token?_of_isDigit {c : Char} (h : c.isDigit = true) (cs : List Char) :
    token? (c :: cs) = number? (c :: cs) := by
  unfold token?
  split <;> simp_all

theorem isSpace_of_isDigit {c : Char} (h : c.isDigit = true) : isSpace c = false := by
  cases hspace : isSpace c with
  | false => rfl
  | true =>
      have hc : ((c = ' ' ∨ c = '\t') ∨ c = '\n') ∨ c = '\r' := by simpa [isSpace] using hspace
      rcases hc with ((rfl | rfl) | rfl) | rfl <;> cases h

theorem token?_toDigits (n : Nat) {rest : List Char} (hrest : EndsNumber rest) :
    token? (Nat.toDigits 10 n ++ rest) = some (.nat n, rest) := by
  have hunsigned := unsigned?_toDigits n hrest
  have hne := Nat.toDigits_ne_nil (b := 10) (n := n)
  obtain ⟨c, cs, hcs⟩ := List.exists_cons_of_ne_nil hne
  have hdigit : c.isDigit = true :=
    Nat.isDigit_of_mem_toDigits (b := 10) (n := n) (by decide) (by decide) (by simp [hcs])
  have hnat := natOfDigits_toDigits n
  rw [hcs] at hunsigned hnat ⊢
  rw [List.cons_append, token?_of_isDigit hdigit, number?]
  · rw [← List.cons_append, hunsigned]
    simp [hnat]
  · intro cs' hcons
    obtain rfl := (List.cons.inj hcons).1
    cases hdigit

/-! ### Words of a text -/

/-- The text has these words, and fuel for as many words as it has characters is enough. -/
def SplitsInto (cs : List Char) (tokens : List Token) : Prop :=
  ∀ fuel, cs.length ≤ fuel → tokens? fuel cs = some tokens

theorem splitsInto_nil : SplitsInto [] [] := by
  intro fuel _
  cases fuel <;> rfl

namespace SplitsInto

variable {cs rest : List Char} {tokens : List Token}

theorem space {c : Char} (h : SplitsInto cs tokens) (hc : isSpace c = true) :
    SplitsInto (c :: cs) tokens := by
  intro fuel hfuel
  obtain ⟨k, rfl⟩ : ∃ k, fuel = k + 1 := Nat.exists_eq_add_one.mpr (by simp at hfuel; omega)
  have hcs := h (k + 1) (by simp at hfuel; omega)
  rw [tokens?] at hcs ⊢
  rwa [List.dropWhile_cons_of_pos hc]

theorem spaces {spaces : List Char} (h : SplitsInto cs tokens)
    (hspaces : ∀ c ∈ spaces, isSpace c = true) : SplitsInto (spaces ++ cs) tokens := by
  induction spaces with
  | nil => exact h
  | cons c spaces ih =>
      obtain ⟨hc, hspaces⟩ := List.forall_mem_cons.mp hspaces
      exact (ih hspaces).space hc

theorem word {c : Char} (cs : List Char) {token : Token} (h : SplitsInto rest tokens)
    (hc : isSpace c = false) (htoken : token? (c :: cs ++ rest) = some (token, rest)) :
    SplitsInto (c :: cs ++ rest) (token :: tokens) := by
  intro fuel hfuel
  obtain ⟨k, rfl⟩ : ∃ k, fuel = k + 1 := Nat.exists_eq_add_one.mpr (by simp at hfuel; omega)
  have hrest := h k (by simp at hfuel; omega)
  rw [List.cons_append] at htoken ⊢
  rw [tokens?, List.dropWhile_cons_of_neg (by simp [hc])]
  simp [htoken, hrest]

theorem mark {c : Char} {token : Token} (h : SplitsInto rest tokens) (hc : isSpace c = false)
    (htoken : ∀ cs, token? (c :: cs) = some (token, cs)) :
    SplitsInto (c :: rest) (token :: tokens) :=
  h.word [] hc (htoken rest)

theorem stringChars (h : SplitsInto rest tokens) (s : String) :
    SplitsInto (stringChars (some s) ++ rest) (.str (some s) :: tokens) :=
  h.word _ (by decide) (token?_stringChars s rest)

theorem toDigits (h : SplitsInto rest tokens) (hends : EndsNumber rest) (n : Nat) :
    SplitsInto (Nat.toDigits 10 n ++ rest) (.nat n :: tokens) := by
  have htoken := token?_toDigits n hends
  obtain ⟨c, cs, hcs⟩ := List.exists_cons_of_ne_nil (Nat.toDigits_ne_nil (b := 10) (n := n))
  have hdigit : c.isDigit = true :=
    Nat.isDigit_of_mem_toDigits (b := 10) (n := n) (by decide) (by decide) (by simp [hcs])
  rw [hcs] at htoken ⊢
  exact h.word cs (isSpace_of_isDigit hdigit) htoken

end SplitsInto

end GridAccess.Json
