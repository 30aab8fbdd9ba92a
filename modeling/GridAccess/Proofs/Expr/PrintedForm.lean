import GridAccess.Expr.Printer
import GridAccess.Proofs.Expr.Inheritance
import GridAccess.Proofs.Literal.Exact

/-!
The form of the text of an expression, from the outside in. A text is a list of terms with their
signs, a term is a list of factors, a factor is a base with or without an exponent, and a base is a
word, a use of a field, or a text in parentheses.
-/

namespace GridAccess

/-! ### Texts of literals -/

namespace Literal

/-- The text of an integer that is not negative. -/
def digits (n : Int64) : List Char := Nat.toDigits 10 n.toInt.toNat

theorem isNegative_int {n : Int64} : (int n).isNegative = true ↔ n.toInt < 0 := by
  simp [isNegative]

/-- A factor is left out behind a sign only if it is -1. -/
theorem isOne_neg_iff {n : Int64} : (int (-n)).isOne = true ↔ n = -1 := by
  rw [isOne, decide_eq_true_iff]
  exact (Int64.neg_inj (b := -1))

theorem toList_text_of_nonneg {n : Int64} (h : ¬ (int n).isNegative = true) :
    (int n).text.toList = digits n := by
  rw [isNegative_int, Int.not_lt] at h
  obtain ⟨k, hk⟩ := Int.eq_ofNat_of_zero_le h
  rw [text, digits, hk, Int.toString_eq_repr]
  exact Nat.toList_repr

section

variable {n : Int64} (hmin : n ≠ Int64.minValue)
include hmin

theorem toInt_neg : (-n).toInt = -n.toInt := by
  have hne : n.toInt ≠ -0x8000000000000000 := fun h => hmin (Int64.toInt_inj.mp h)
  have hle := Int64.le_toInt n
  have hlt := Int64.toInt_lt n
  rw [Int64.toInt_neg, Int.bmod_eq_of_le] <;> omega

theorem neg_int : (int n).neg = .int (-n) := by
  rw [neg, ← toInt_neg hmin, wordOf?_toInt]

theorem neg_ne_minValue : -n ≠ Int64.minValue := by
  intro h
  have hn : n = -Int64.minValue := by rw [← h, Int64.neg_neg]
  exact hmin (hn.trans (by decide))

theorem neg_int_neg : (int (-n)).neg = .int n := by
  rw [neg_int (neg_ne_minValue hmin), Int64.neg_neg]

theorem not_isNegative_neg (h : (int n).isNegative = true) :
    ¬ (int (-n)).isNegative = true := by
  rw [isNegative_int] at h ⊢
  rw [toInt_neg hmin]
  omega

theorem toList_text_of_isNegative (h : (int n).isNegative = true) :
    (int n).text.toList = '-' :: (int (-n)).text.toList := by
  rw [toList_text_of_nonneg (not_isNegative_neg hmin h)]
  rw [isNegative_int] at h
  obtain ⟨k, hk⟩ := Int.eq_negSucc_of_lt_zero h
  rw [text, digits, toInt_neg hmin, hk, Int.toString_eq_repr, Int.repr,
    String.toList_append, Nat.toList_repr]
  rfl

end

end Literal

namespace Expr

theorem renderList_eq (es : List Expr) : renderList es = es.map render := by
  induction es with
  | nil => rfl
  | cons e es ih => exact congrArg (e.render :: ·) ih

/-! ### Parts of a text -/

def chars (e : Expr) : List Char := e.text.toList

def factorChars (e : Expr) : List Char := e.render.factorText.toList

def baseChars (e : Expr) : List Char := e.render.baseText.toList

def exponentChars (e : Expr) : List Char := e.render.exponentText.toList

/-- Texts one after the other with a separator between them. -/
def separated (separator : List Char) (text : Expr → List Char) : List Expr → List Char
  | [] => []
  | e :: es => text e ++ es.flatMap fun e => separator ++ text e

theorem separated_cons_cons (separator : List Char) (text : Expr → List Char) (e e' : Expr)
    (es : List Expr) : separated separator text (e :: e' :: es) =
      text e ++ separator ++ separated separator text (e' :: es) := by
  simp [separated]

theorem toList_intercalate (separator : String) (text : Expr → String) (es : List Expr) :
    (separator.intercalate (es.map text)).toList =
      separated separator.toList (fun e => (text e).toList) es := by
  rw [String.toList_intercalate, List.map_map]
  induction es with
  | nil => rfl
  | cons e es ih =>
      cases es with
      | nil => simp [separated]
      | cons e' es =>
          rw [List.map_cons, List.map_cons, List.intercalate_cons_cons, ← List.map_cons, ih,
            separated_cons_cons]
          rfl

/-- The text starts with a minus sign that belongs to a literal. -/
def isNegative : Expr → Bool
  | .lit n => n.isNegative
  | .prod (.lit c :: _) => c.isNegative
  | _ => false

/-- What stands behind the sign of a term, without a factor 1. -/
def magnitude : Expr → List Expr
  | .lit n => if n.isNegative then [.lit n.neg] else [.lit n]
  | .prod (.lit c :: factors) =>
    if c.isNegative then if c.neg.isOne then factors else .lit c.neg :: factors
    else .lit c :: factors
  | .prod factors => factors
  | e => [e]

def magnitudeChars (e : Expr) : List Char := separated ['*'] factorChars e.magnitude

/-- The terms in the order in which they are shown. -/
def shownTerms : Expr → List Expr
  | .sum terms => (terms.filter fun t => !t.isLiteral) ++ terms.filter isLiteral
  | e => [e]

theorem shownTerms_perm (terms : List Expr) : (sum terms).shownTerms.Perm terms :=
  List.perm_append_comm.trans (List.filter_append_perm isLiteral terms)

def firstChars (e : Expr) : List Char := (if e.isNegative then ['-'] else []) ++ e.magnitudeChars

def laterChars (e : Expr) : List Char :=
  ' ' :: (if e.isNegative then '-' else '+') :: ' ' :: e.magnitudeChars

/-- What is shown without parentheses wherever it stands. -/
def isWord : Expr → Bool
  | .lit n => !n.isNegative
  | .sym _ | .dim _ | .call _ _ | .access _ _ => true
  | .sum _ | .prod _ | .pow _ _ => false

def listChars (es : List Expr) : List Char := separated [',', ' '] chars es

/-- A number or a name. -/
def wordChars : Expr → List Char
  | .lit n => n.text.toList
  | .sym s => s.name.toList
  | .dim d => d.name.toList
  | .call f _ | .access f _ => f.name.toList
  | .sum _ | .prod _ | .pow _ _ => []

/-- The operands of a use of a field in their brackets. -/
def groupChars : Expr → List Char
  | .call _ args => '(' :: listChars args ++ [')']
  | .access _ indices => '[' :: listChars indices ++ [']']
  | _ => []

/-! ### Bases, exponents and factors -/

theorem toList_listText (es : List Expr) :
    (Rendered.listText (renderList es)).toList = listChars es := by
  rw [Rendered.listText, renderList_eq, List.map_map]
  exact toList_intercalate ", " text es

theorem toList_parenthesized (e : Expr) :
    e.render.parenthesized.toList = '(' :: e.chars ++ [')'] := by
  simp [Rendered.parenthesized, chars, text]

theorem chars_of_isWord {e : Expr} (h : e.isWord = true) :
    e.chars = e.wordChars ++ e.groupChars := by
  cases e with
  | lit | sym | dim => exact (List.append_nil _).symm
  | call f args | access f args =>
      show (f.name ++ _ ++ _ ++ _ : String).toList = f.name.toList ++ _
      simp only [String.toList_append, toList_listText, groupChars]
      simp
  | sum | prod | pow => cases h

theorem baseChars_of_isWord {e : Expr} (h : e.isWord = true) : e.baseChars = e.chars := by
  cases e with
  | lit n =>
      have hn : n.isNegative = false := by simpa [isWord] using h
      simp [baseChars, chars, text, render, Rendered.baseText, Rendered.ofLiteral,
        Rendered.isCompound, hn]
  | sym | dim | call | access => rfl
  | sum | prod | pow => cases h

theorem baseChars_of_not_isWord {e : Expr} (h : ¬ e.isWord = true) :
    e.baseChars = '(' :: e.chars ++ [')'] := by
  rw [← toList_parenthesized]
  cases e with
  | lit n =>
      have hn : n.isNegative = true := by simpa [isWord] using h
      simp [baseChars, render, Rendered.baseText, Rendered.ofLiteral, hn]
  | sum | prod | pow => rfl
  | sym | dim | call | access => exact (h rfl).elim

theorem exponentChars_eq {e : Expr} (h : ∀ n, e = .lit n → ¬ n.isNegative = true) :
    e.exponentChars = e.baseChars := by
  cases e with
  | lit n =>
      rw [baseChars_of_isWord (by simpa [isWord] using h n rfl)]
      rfl
  | _ => rfl

theorem factorChars_pow (base exponent : Expr) :
    (pow base exponent).factorChars =
      base.baseChars ++ '*' :: '*' :: exponent.exponentChars := by
  show (base.render.baseText ++ "**" ++ exponent.render.exponentText).toList = _
  simp [baseChars, exponentChars]

theorem factorChars_lit (n : Literal) : (lit n).factorChars = n.text.toList := rfl

/-- A factor is no product and has no sign. -/
def isPlainFactor (e : Expr) : Bool :=
  !e.isNegative && match e with
    | .prod _ => false
    | _ => true

theorem factorChars_eq_baseChars {e : Expr} (h : e.isPlainFactor = true)
    (hpow : ∀ base exponent, e ≠ .pow base exponent) : e.factorChars = e.baseChars := by
  cases e with
  | lit n =>
      rw [baseChars_of_isWord (by simpa [isWord, isPlainFactor, isNegative] using h)]
      rfl
  | sym | dim | call | access | sum => rfl
  | prod => simp [isPlainFactor] at h
  | pow base exponent => exact (hpow base exponent rfl).elim

/-! ### Terms -/

/-- The text of a term is the sign and the factors behind it. -/
structure Signed (e : Expr) : Prop where
  chars : e.chars = e.firstChars
  negation : e.render.negation.map String.toList =
    if e.isNegative then some e.magnitudeChars else none

theorem Signed.of_plain {e : Expr} (hnegative : e.isNegative = false)
    (hmagnitude : e.magnitude = [e]) (hnegation : e.render.negation = none)
    (hfactor : e.factorChars = e.chars) : e.Signed := by
  refine ⟨?_, by rw [hnegation, hnegative]; rfl⟩
  simp [firstChars, hnegative, magnitudeChars, hmagnitude, separated, hfactor]

theorem signed_lit {k : Int64} (hmin : k ≠ Int64.minValue) : (lit (.int k)).Signed := by
  by_cases h : (Literal.int k).isNegative = true
  · have hmagnitude : (lit (.int k)).magnitudeChars = (Literal.int (-k)).text.toList := by
      simp [magnitudeChars, magnitude, h, separated, factorChars_lit, Literal.neg_int hmin]
    refine ⟨?_, ?_⟩
    · rw [firstChars, hmagnitude, isNegative, if_pos h]
      exact Literal.toList_text_of_isNegative hmin h
    · rw [hmagnitude, isNegative, if_pos h]
      simp [render, Rendered.ofLiteral, h, Literal.neg_int hmin]
  · refine .of_plain (by simpa [isNegative] using h) (if_neg h) ?_ rfl
    simp [render, Rendered.ofLiteral, h]

theorem toList_factorsText (factors : List Expr) :
    (Rendered.factorsText (factors.map render)).toList = separated ['*'] factorChars factors := by
  rw [Rendered.factorsText, List.map_map]
  exact toList_intercalate "*" (fun e => e.render.factorText) factors

theorem prod_of_not_literal {f : Expr} (hf : f.literal? = none) (rest : List Expr) :
    (prod (f :: rest)).isNegative = false ∧ (prod (f :: rest)).magnitude = f :: rest := by
  cases f with
  | lit => cases hf
  | _ => exact ⟨rfl, rfl⟩

theorem signed_prod_of_not_literal {f g : Expr} {rest : List Expr} (hf : f.literal? = none) :
    (prod (f :: g :: rest)).Signed := by
  obtain ⟨hnegative, hmagnitude⟩ := prod_of_not_literal hf (g :: rest)
  refine ⟨?_, ?_⟩
  · rw [firstChars, hnegative, magnitudeChars, hmagnitude, ← toList_factorsText]
    simp [chars, text, render, renderList_eq, Rendered.product, Rendered.productText, hf]
  · rw [hnegative]
    simp [render, Rendered.product, hf]

/-- A factor -1 is only a sign. -/
theorem prod_lit_cases {k : Int64} (hmin : k ≠ Int64.minValue) (rest : List Expr) :
    (k = -1 ∧ (prod (.lit (.int k) :: rest)).isNegative = true ∧
      (prod (.lit (.int k) :: rest)).magnitude = rest) ∨
    (k ≠ -1 ∧ (Literal.int k).isNegative = true ∧
      (prod (.lit (.int k) :: rest)).isNegative = true ∧
      (prod (.lit (.int k) :: rest)).magnitude = int (-k) :: rest) ∨
    ((Literal.int k).isNegative = false ∧ (prod (.lit (.int k) :: rest)).isNegative = false ∧
      (prod (.lit (.int k) :: rest)).magnitude = int k :: rest) := by
  by_cases h : (Literal.int k).isNegative = true
  · by_cases hone : k = -1
    · subst hone
      exact .inl ⟨rfl, rfl, rfl⟩
    · refine .inr (.inl ⟨hone, h, h, ?_⟩)
      rw [magnitude, if_pos h, Literal.neg_int hmin,
        if_neg fun hopposite => hone (Literal.isOne_neg_iff.mp hopposite), int]
  · rw [Bool.not_eq_true] at h
    refine .inr (.inr ⟨h, h, ?_⟩)
    rw [magnitude, if_neg (by simp [h]), int]

theorem signed_prod_minus_one (g : Expr) (rest : List Expr) :
    (prod (int (-1) :: g :: rest)).Signed := by
  have hmagnitude : (prod (int (-1) :: g :: rest)).magnitudeChars =
      (Rendered.factorsText ((g :: rest).map render)).toList := (toList_factorsText _).symm
  have hnegative : (prod (int (-1) :: g :: rest)).isNegative = true := rfl
  refine ⟨?_, ?_⟩
  · rw [firstChars, hmagnitude, hnegative, ← renderList_eq]
    exact String.toList_append
  · rw [hmagnitude, hnegative, ← renderList_eq]
    rfl

theorem signed_prod_lit {k : Int64} {g : Expr} {rest : List Expr} (hmin : k ≠ Int64.minValue) :
    (prod (.lit (.int k) :: g :: rest)).Signed := by
  have htext (hone : k ≠ -1) : (prod (.lit (.int k) :: g :: rest)).chars =
      separated ['*'] factorChars (.lit (.int k) :: g :: rest) := by
    rw [← toList_factorsText]
    simp [chars, text, render, renderList_eq, Rendered.product, Rendered.productText, literal?,
      hone]
  rcases prod_lit_cases hmin (g :: rest) with ⟨rfl, -, -⟩ | ⟨hone, hk, hnegative, hmagnitude⟩ |
    ⟨hk, hnegative, hmagnitude⟩
  · exact signed_prod_minus_one g rest
  · refine ⟨?_, ?_⟩
    · rw [firstChars, magnitudeChars, hnegative, hmagnitude, htext hone, separated_cons_cons,
        separated_cons_cons, factorChars_lit, Literal.toList_text_of_isNegative hmin hk]
      rfl
    · have hopposite : (Literal.int (-k)).isOne = false :=
        Bool.eq_false_iff.mpr fun hopposite => hone (Literal.isOne_neg_iff.mp hopposite)
      rw [hnegative, if_pos rfl, magnitudeChars, hmagnitude, separated_cons_cons,
        ← toList_factorsText]
      simp [render, renderList_eq, Rendered.product, literal?, hk, Rendered.negatedProduct,
        Literal.neg_int hmin, hopposite, int, factorChars_lit]
  · have hone : k ≠ -1 := by
      rintro rfl
      cases hk
    refine ⟨?_, ?_⟩
    · rw [firstChars, magnitudeChars, hnegative, hmagnitude, htext hone]
      rfl
    · rw [hnegative]
      simp [render, Rendered.product, literal?, hk]

/-- A product of two factors or more starts with a literal that has an opposite, or with none. -/
theorem exists_front {factors : List Expr} (hlength : 2 ≤ factors.length)
    (hlit : ∀ n, .lit n ∈ factors → ∃ k : Int64, n = .int k ∧ k ≠ Int64.minValue) :
    ∃ f g rest, factors = f :: g :: rest ∧
      (f.literal? = none ∨ ∃ k : Int64, f = .lit (.int k) ∧ k ≠ Int64.minValue) := by
  match factors, hlength with
  | f :: g :: rest, _ =>
    refine ⟨f, g, rest, rfl, ?_⟩
    cases hf : f.literal? with
    | none => exact .inl rfl
    | some n =>
        obtain rfl := eq_lit_of_literal? hf
        obtain ⟨k, rfl, hmin⟩ := hlit n List.mem_cons_self
        exact .inr ⟨k, rfl, hmin⟩

theorem signed_prod {factors : List Expr} (hlength : 2 ≤ factors.length)
    (hlit : ∀ n, .lit n ∈ factors → ∃ k : Int64, n = .int k ∧ k ≠ Int64.minValue) :
    (prod factors).Signed := by
  obtain ⟨f, g, rest, rfl, hf | ⟨k, rfl, hmin⟩⟩ := exists_front hlength hlit
  · exact signed_prod_of_not_literal hf
  · exact signed_prod_lit hmin

/-! ### Texts -/

theorem toList_firstTerm {e : Expr} (h : e.Signed) : e.render.firstTerm.toList = e.firstChars := by
  have hnegation := h.negation
  unfold Rendered.firstTerm
  cases hn : e.render.negation with
  | none => exact h.chars
  | some text =>
      rw [hn] at hnegation
      by_cases hnegative : e.isNegative = true
      · rw [if_pos hnegative] at hnegation
        simp [firstChars, hnegative, ← Option.some.inj hnegation]
      · rw [if_neg hnegative] at hnegation
        cases hnegation

theorem toList_laterTerm {e : Expr} (h : e.Signed) : e.render.laterTerm.toList = e.laterChars := by
  have hnegation := h.negation
  unfold Rendered.laterTerm
  cases hn : e.render.negation with
  | none =>
      have hnegative : e.isNegative = false := by
        by_contra hnegative
        simp [hn, hnegative] at hnegation
      have hchars : e.render.text.toList = e.magnitudeChars := by
        have hchars := h.chars
        rwa [firstChars, hnegative] at hchars
      simp [laterChars, hnegative, hchars]
  | some text =>
      rw [hn] at hnegation
      by_cases hnegative : e.isNegative = true
      · rw [if_pos hnegative] at hnegation
        simp [laterChars, hnegative, ← Option.some.inj hnegation]
      · rw [if_neg hnegative] at hnegation
        cases hnegation

theorem form_eq_literal_iff (e : Expr) : e.render.form = .literal ↔ e.isLiteral = true := by
  cases e <;>
    simp [render, Rendered.ofLiteral, Rendered.atom, Rendered.product, isLiteral, literal?]

theorem sumText_map_render {t : Expr} {ts : List Expr} (ht : t.Signed) (hts : ∀ u ∈ ts, u.Signed) :
    (t.render.firstTerm ++ String.join ((ts.map render).map Rendered.laterTerm)).toList =
      t.firstChars ++ ts.flatMap laterChars := by
  have hlater : ts.flatMap (fun u => u.render.laterTerm.toList) = ts.flatMap laterChars :=
    List.flatMap_congr fun u hu => toList_laterTerm (hts u hu)
  simp only [String.toList_append, toList_firstTerm ht, String.toList_join, List.flatMap_map,
    ← hlater, List.map_map]
  rfl

/-- The terms of a text stand one after the other. -/
theorem chars_of_shownTerms {e t : Expr} {ts : List Expr} (h : ∀ u ∈ e.shownTerms, u.Signed)
    (hterms : e.shownTerms = t :: ts) : e.chars = t.firstChars ++ ts.flatMap laterChars := by
  cases e with
  | sum terms =>
      have hshown : (renderList terms).filter (·.form ≠ .literal) ++
          (renderList terms).filter (·.form = .literal) = (sum terms).shownTerms.map render := by
        simp [renderList_eq, List.filter_map, shownTerms, Function.comp_def, form_eq_literal_iff]
      rw [hterms] at h hshown
      obtain ⟨ht, hts⟩ := List.forall_mem_cons.mp h
      show (Rendered.sumText (renderList terms)).toList = _
      rw [Rendered.sumText, hshown]
      exact sumText_map_render ht hts
  | lit | sym | dim | call | access | prod | pow =>
      obtain ⟨rfl, rfl⟩ := List.cons.inj hterms
      exact (h _ List.mem_cons_self).chars.trans (List.append_nil _).symm

end Expr

end GridAccess
