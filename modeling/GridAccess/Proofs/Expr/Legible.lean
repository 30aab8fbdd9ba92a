import GridAccess.Proofs.Expr.PrintedForm

/-!
What makes a text legible: names that hold none of the characters that texts are put together with
and stand for one thing each, and the shape that sums and products have in canonical expressions.
A part of a legible text says where it begins, and what it is shown of can be told from its pieces:
a literal or a variable from its word, a term from its sign and factors, an expression from its
terms in the order in which they are shown.
-/

namespace GridAccess

namespace Expr

/-! ### Names -/

/-- The characters that a text is put together with. No name holds one. -/
def isMark (c : Char) : Bool := c ∈ [' ', '(', ')', '[', ']', ',', '+', '-', '*']

/-- A name holds no marks and does not start with a digit. Identifiers are names. -/
def isName (name : String) : Bool :=
  match name.toList with
  | [] => false
  | c :: cs => !c.isDigit && (c :: cs).all (!isMark ·)

example : isName "_h2" = true ∧ isName "ü" = true ∧ isName "2h" = false ∧ isName "x y" = false := by
  decide

/-- What is shown as its name alone. -/
abbrev Variable := Symbol ⊕ Dimension

namespace Variable

def name : Variable → String := Sum.elim Symbol.name Dimension.name

def toExpr : Variable → Expr := Sum.elim Expr.sym Expr.dim

end Variable

/-- What the names in a text stand for. A field can have the name of a variable. -/
structure Dictionary where
  variableOf : String → Variable
  fieldOf : String → Field

namespace Dictionary

/-- What an expression has to be like to be read off its text: a sum is no list of one term and
has its literals in front, and a product is no list of one factor and has only the first one as a
literal. -/
def LegibleNode (d : Dictionary) : Expr → Prop
  | .lit n => ∃ k : Int64, n = .int k ∧ k ≠ Int64.minValue
  | .sym s => isName s.name = true ∧ d.variableOf s.name = .inl s
  | .dim v => isName v.name = true ∧ d.variableOf v.name = .inr v
  | .call f _ => isName f.name = true ∧ d.fieldOf f.name = f
  | .access f _ => isName f.name = true ∧ d.fieldOf f.name = f
  | .sum terms =>
    2 ≤ terms.length ∧ (∀ t ∈ terms, ∀ us, t ≠ .sum us) ∧
      terms = terms.filter isLiteral ++ terms.filter fun t => !t.isLiteral
  | .prod factors =>
    2 ≤ factors.length ∧ (∀ f ∈ factors, ∀ gs, f ≠ .prod gs) ∧
      ∀ f ∈ factors.tail, f.isLiteral = false
  | .pow _ _ => True

def Legible (d : Dictionary) (e : Expr) : Prop := AllNodes d.LegibleNode e

end Dictionary

theorem signed_of_legible {d : Dictionary} {t : Expr} (h : d.Legible t)
    (hsum : ∀ us, t ≠ .sum us) : t.Signed := by
  cases t with
  | lit n =>
      obtain ⟨k, rfl, hmin⟩ := h.self
      exact signed_lit hmin
  | prod factors =>
      obtain ⟨⟨hlength, -⟩, hfactors⟩ := allNodes_prod.mp h
      exact signed_prod hlength fun n hn => (hfactors _ hn).self
  | sum terms => exact (hsum terms rfl).elim
  | sym | dim | call | access | pow => exact .of_plain rfl rfl rfl rfl

/-! ### Words -/

theorem isMark_of_isDigit {c : Char} (h : c.isDigit = true) : isMark c = false := by
  rw [isMark, decide_eq_false_iff_not]
  intro hmem
  simp only [List.mem_cons, List.not_mem_nil, or_false] at hmem
  rcases hmem with rfl | rfl | rfl | rfl | rfl | rfl | rfl | rfl | rfl <;> cases h

theorem exists_of_isName {name : String} (h : isName name = true) : ∃ c cs, name.toList = c :: cs ∧
    c.isDigit = false ∧ ∀ c ∈ name.toList, isMark c = false := by
  unfold isName at h
  cases hname : name.toList with
  | nil => simp [hname] at h
  | cons c cs =>
      simp only [hname, Bool.and_eq_true, Bool.not_eq_true', List.all_eq_true] at h
      exact ⟨c, cs, rfl, h.1, h.2⟩

theorem exists_of_digits (n : Int64) : ∃ c cs, Literal.digits n = c :: cs ∧ c.isDigit = true ∧
    ∀ c ∈ Literal.digits n, isMark c = false := by
  have hdigit : ∀ c ∈ Literal.digits n, c.isDigit = true :=
    fun c hc => Nat.isDigit_of_mem_toDigits (by decide) (by decide) hc
  obtain ⟨c, cs, hcs⟩ := List.exists_cons_of_ne_nil (l := Literal.digits n) Nat.toDigits_ne_nil
  exact ⟨c, cs, hcs, hdigit c (hcs ▸ List.mem_cons_self),
    fun c hc => isMark_of_isDigit (hdigit c hc)⟩

section

variable {d : Dictionary} {e : Expr} (h : d.Legible e)
include h

theorem wordChars_of_isWord (hword : e.isWord = true) :
    e.wordChars ≠ [] ∧ ∀ c ∈ e.wordChars, isMark c = false := by
  have hname {name : String} (hname : isName name = true) :
      name.toList ≠ [] ∧ ∀ c ∈ name.toList, isMark c = false := by
    obtain ⟨c, cs, hcs, -, hmarks⟩ := exists_of_isName hname
    exact ⟨by simp [hcs], hmarks⟩
  cases e with
  | lit n =>
      obtain ⟨k, rfl, -⟩ := h.self
      have hk : ¬ (Literal.int k).isNegative = true := by simpa [isWord] using hword
      obtain ⟨c, cs, hcs, -, hmarks⟩ := exists_of_digits k
      rw [wordChars, Literal.toList_text_of_nonneg hk]
      exact ⟨by simp [hcs], hmarks⟩
  | sym | dim | call | access => exact hname h.self.1
  | sum | prod | pow => cases hword

end

/-- The literal or variable that a word stands for. -/
def Dictionary.leafOf (d : Dictionary) (word : List Char) : Expr :=
  if word.head?.any Char.isDigit then .int (Int64.ofInt (Nat.ofDigitChars 10 word 0))
  else (d.variableOf (String.ofList word)).toExpr

theorem leafOf_wordChars {d : Dictionary} {e : Expr} (h : d.Legible e) (hword : e.isWord = true)
    (hgroup : e.groupChars = []) : d.leafOf e.wordChars = e := by
  have hname {name : String} (hname : isName name = true) :
      d.leafOf name.toList = (d.variableOf name).toExpr := by
    obtain ⟨c, cs, hcs, hdigit, -⟩ := exists_of_isName hname
    have hhead : name.toList.head?.any Char.isDigit = false := by simp [hcs, hdigit]
    rw [Dictionary.leafOf, hhead, String.ofList_toList]
    rfl
  cases e with
  | lit n =>
      obtain ⟨k, rfl, -⟩ := h.self
      have hk : ¬ (Literal.int k).isNegative = true := by simpa [isWord] using hword
      obtain ⟨c, cs, hcs, hdigit, -⟩ := exists_of_digits k
      have hhead : (Literal.digits k).head?.any Char.isDigit = true := by simp [hcs, hdigit]
      rw [Literal.isNegative_int, Int.not_lt] at hk
      rw [wordChars, Literal.toList_text_of_nonneg (by simpa [isWord] using hword),
        Dictionary.leafOf, if_pos hhead, Literal.digits, Nat.ofDigitChars_ten_toDigits,
        Int.toNat_of_nonneg hk, Int64.ofInt_toInt]
      rfl
  | sym | dim => exact (hname h.self.1).trans (congrArg Variable.toExpr h.self.2)
  | call | access => cases hgroup
  | sum | prod | pow => cases hword

/-! ### Beginnings of parts -/

/-- Bases, factors and terms start with a parenthesis, or with a character of a word. -/
def Opens (cs : List Char) : Prop := ∃ c rest, cs = c :: rest ∧ (c = '(' ∨ isMark c = false)

theorem Opens.append {cs : List Char} (h : Opens cs) (rest : List Char) : Opens (cs ++ rest) := by
  obtain ⟨c, cs, rfl, hc⟩ := h
  exact ⟨c, cs ++ rest, rfl, hc⟩

/-- What starts with another mark, a sign for instance, is not opened. -/
theorem Opens.ne_cons {cs : List Char} (h : Opens cs) {c : Char} (hc : c ≠ '(')
    (hmark : isMark c = true) (r s : List Char) : cs ++ r ≠ c :: s := by
  obtain ⟨c', rest, rfl, hopen⟩ := h
  intro heq
  obtain rfl : c' = c := (List.cons.inj heq).1
  rcases hopen with rfl | hopen
  · exact hc rfl
  · rw [hmark] at hopen
    cases hopen

section

variable {d : Dictionary} {e : Expr} (h : d.Legible e)
include h

theorem opens_wordChars (hword : e.isWord = true) : ∃ c rest, e.wordChars = c :: rest ∧
    isMark c = false := by
  obtain ⟨hne, hmarks⟩ := wordChars_of_isWord h hword
  obtain ⟨c, cs, hcs⟩ := List.exists_cons_of_ne_nil hne
  exact ⟨c, cs, hcs, hmarks c (by simp [hcs])⟩

theorem opens_baseChars : Opens e.baseChars := by
  by_cases hword : e.isWord = true
  · obtain ⟨c, cs, hcs, hc⟩ := opens_wordChars h hword
    rw [baseChars_of_isWord hword, chars_of_isWord hword, hcs]
    exact ⟨c, _, rfl, .inr hc⟩
  · rw [baseChars_of_not_isWord hword]
    exact ⟨'(', _, rfl, .inl rfl⟩

theorem opens_factorChars (hfactor : e.isPlainFactor = true) : Opens e.factorChars := by
  by_cases hpow : ∃ base exponent, e = .pow base exponent
  · obtain ⟨base, exponent, rfl⟩ := hpow
    rw [factorChars_pow]
    exact (opens_baseChars (allNodes_pow.mp h).2.1).append _
  · rw [factorChars_eq_baseChars hfactor fun base exponent heq => hpow ⟨base, exponent, heq⟩]
    exact opens_baseChars h

end

theorem legible_neg {d : Dictionary} {k : Int64} (hmin : k ≠ Int64.minValue)
    (h : (Literal.int k).isNegative = true) :
    d.Legible (int (-k)) ∧ (int (-k)).isPlainFactor = true := by
  have hnonneg := Literal.not_isNegative_neg hmin h
  refine ⟨?_, by simpa [isPlainFactor, isNegative, int] using hnonneg⟩
  intro n hn
  obtain rfl := mem_nodes_lit.mp hn
  exact ⟨-k, rfl, Literal.neg_ne_minValue hmin⟩

theorem isPlainFactor_of_not_literal {e : Expr} (hliteral : e.isLiteral = false)
    (hprod : ∀ gs, e ≠ .prod gs) : e.isPlainFactor = true := by
  cases e with
  | lit => cases hliteral
  | prod gs => exact (hprod gs rfl).elim
  | _ => rfl

theorem exists_front_of_legible {d : Dictionary} {factors : List Expr}
    (h : d.Legible (.prod factors)) : ∃ f g rest, factors = f :: g :: rest ∧
      (f.literal? = none ∨ ∃ k : Int64, f = .lit (.int k) ∧ k ≠ Int64.minValue) := by
  obtain ⟨⟨hlength, -⟩, hfactors⟩ := allNodes_prod.mp h
  exact exists_front hlength fun n hn => (hfactors _ hn).self

/-- There is something behind the sign, and it has no sign of its own. -/
theorem magnitude_of_legible {d : Dictionary} {t : Expr} (h : d.Legible t) :
    t.magnitude ≠ [] ∧ ∀ f ∈ t.magnitude, d.Legible f ∧ f.isPlainFactor = true := by
  cases t with
  | lit n =>
      obtain ⟨k, rfl, hmin⟩ := h.self
      by_cases hk : (Literal.int k).isNegative = true
      · rw [magnitude, if_pos hk, Literal.neg_int hmin]
        exact ⟨by simp, List.forall_mem_singleton.mpr (legible_neg hmin hk)⟩
      · rw [magnitude, if_neg hk]
        exact ⟨by simp, List.forall_mem_singleton.mpr
          ⟨h, by simpa [isPlainFactor, isNegative] using hk⟩⟩
  | prod factors =>
      obtain ⟨⟨-, hprod, htail⟩, hfactors⟩ := allNodes_prod.mp h
      obtain ⟨f, g, rest, rfl, hfront⟩ := exists_front_of_legible h
      have hf := hfactors f List.mem_cons_self
      have hrest : ∀ a ∈ g :: rest, d.Legible a ∧ a.isPlainFactor = true := fun a ha =>
        ⟨hfactors a (List.mem_cons_of_mem _ ha),
          isPlainFactor_of_not_literal (htail a ha) (hprod a (List.mem_cons_of_mem _ ha))⟩
      rcases hfront with hliteral | ⟨k, rfl, hmin⟩
      · rw [(prod_of_not_literal hliteral _).2]
        refine ⟨by simp, List.forall_mem_cons.mpr ⟨⟨hf, ?_⟩, hrest⟩⟩
        exact isPlainFactor_of_not_literal (by simp [isLiteral, hliteral])
          (hprod f List.mem_cons_self)
      · rcases prod_lit_cases hmin (g :: rest) with ⟨-, -, heq⟩ | ⟨-, hk, -, heq⟩ |
          ⟨hk, -, heq⟩ <;> rw [heq]
        · exact ⟨by simp, hrest⟩
        · exact ⟨by simp, List.forall_mem_cons.mpr ⟨legible_neg hmin hk, hrest⟩⟩
        · refine ⟨by simp, List.forall_mem_cons.mpr ⟨⟨hf, ?_⟩, hrest⟩⟩
          simpa [isPlainFactor, isNegative, int] using hk
  | sym | dim | call | access | sum | pow =>
      exact ⟨by simp [magnitude], List.forall_mem_singleton.mpr ⟨h, rfl⟩⟩

theorem opens_magnitudeChars {d : Dictionary} {t : Expr} (h : d.Legible t) :
    Opens t.magnitudeChars := by
  obtain ⟨hne, hmem⟩ := magnitude_of_legible h
  obtain ⟨f, fs, hfs⟩ := List.exists_cons_of_ne_nil hne
  obtain ⟨hf, hplain⟩ := hmem f (by simp [hfs])
  rw [magnitudeChars, hfs]
  exact (opens_factorChars hf hplain).append _

/-! ### What sign and factors, or terms, are shown of -/

/-- The term with this sign and these factors behind it. -/
def ofMagnitude (negative : Bool) (factors : List Expr) : Expr :=
  if negative then
    match factors with
    | [.lit n] => .lit n.neg
    | .lit n :: rest => .prod (.lit n.neg :: rest)
    | rest => .prod (int (-1) :: rest)
  else
    match factors with
    | [f] => f
    | fs => .prod fs

theorem ofMagnitude_eq {d : Dictionary} {t : Expr} (h : d.Legible t) :
    ofMagnitude t.isNegative t.magnitude = t := by
  cases t with
  | lit n =>
      obtain ⟨k, rfl, hmin⟩ := h.self
      by_cases hk : (Literal.int k).isNegative = true
      · rw [isNegative, magnitude, hk, if_pos rfl, Literal.neg_int hmin]
        exact congrArg lit (Literal.neg_int_neg hmin)
      · rw [isNegative, magnitude, if_neg hk, Bool.eq_false_iff.mpr hk]
        rfl
  | prod factors =>
      obtain ⟨⟨-, -, htail⟩, -⟩ := allNodes_prod.mp h
      obtain ⟨f, g, rest, rfl, hliteral | ⟨k, rfl, hmin⟩⟩ := exists_front_of_legible h
      · obtain ⟨hnegative, hmagnitude⟩ := prod_of_not_literal hliteral (g :: rest)
        rw [hnegative, hmagnitude]
        rfl
      · have hg : g.isLiteral = false := htail g List.mem_cons_self
        rcases prod_lit_cases hmin (g :: rest) with ⟨rfl, hnegative, hmagnitude⟩ |
          ⟨-, -, hnegative, hmagnitude⟩ | ⟨-, hnegative, hmagnitude⟩ <;>
          rw [hnegative, hmagnitude]
        · cases g with
          | lit => cases hg
          | _ => rfl
        · exact congrArg (fun n => prod (.lit n :: g :: rest)) (Literal.neg_int_neg hmin)
        · rfl
  | sym | dim | call | access | sum | pow => rfl

/-- The text with these terms, literals last. -/
def ofTerms (terms : List Expr) : Expr :=
  match terms with
  | [t] => t
  | ts => .sum (ts.filter isLiteral ++ ts.filter fun t => !t.isLiteral)

theorem ofTerms_shownTerms {d : Dictionary} {e : Expr} (h : d.Legible e) :
    ofTerms e.shownTerms = e := by
  cases e with
  | sum terms =>
      obtain ⟨hlength, -, hterms⟩ := h.self
      have hshown := (shownTerms_perm terms).length_eq
      have hsum : ofTerms (sum terms).shownTerms =
          .sum ((sum terms).shownTerms.filter isLiteral ++
            (sum terms).shownTerms.filter fun t => !t.isLiteral) := by
        unfold ofTerms
        split
        · next t heq =>
            rw [heq, List.length_singleton] at hshown
            omega
        · rfl
      rw [hsum]
      simp only [shownTerms, List.filter_append, List.filter_filter]
      simpa using hterms.symm
  | _ => rfl

theorem shownTerms_of_legible {d : Dictionary} {e : Expr} (h : d.Legible e) :
    e.shownTerms ≠ [] ∧ ∀ t ∈ e.shownTerms, d.Legible t ∧ ∀ us, t ≠ .sum us := by
  cases e with
  | sum terms =>
      obtain ⟨⟨hlength, hsum, -⟩, hlegible⟩ := allNodes_sum.mp h
      constructor
      · intro hnil
        have hshown := (shownTerms_perm terms).length_eq
        rw [hnil, List.length_nil] at hshown
        omega
      · intro t ht
        have hmem := (shownTerms_perm terms).mem_iff.mp ht
        exact ⟨hlegible t hmem, hsum t hmem⟩
  | _ => exact ⟨by simp [shownTerms], List.forall_mem_singleton.mpr ⟨h, by simp⟩⟩

end Expr

end GridAccess
