import GridAccess.Proofs.Expr.CanonicalForm
import GridAccess.Proofs.Expr.Legible

/-!
Unique reading: canonical expressions with the same text are equal. What is shown by a part of the
text, and where it ends, is determined by the characters from its start on, as long as it ends where
such a part may end. This is shown for bases, factors, terms and texts in turn; each of them is made
of parts of the kind before, and parentheses lead from a base back to a text inside of the node.
-/

namespace GridAccess

namespace Expr

/-! ### Ends and beginnings -/

/-- The text is over or goes on with one of these characters. -/
def Ends (marks rest : List Char) : Prop := ∀ c, rest.head? = some c → c ∈ marks

@[simp] theorem ends_nil (marks : List Char) : Ends marks [] := nofun

@[simp] theorem ends_cons {marks rest : List Char} {c : Char} :
    Ends marks (c :: rest) ↔ c ∈ marks := by
  simp [Ends]

theorem Ends.mono {marks marks' rest : List Char} (h : Ends marks rest) (hsub : marks ⊆ marks') :
    Ends marks' rest :=
  fun c hc => hsub (h c hc)

/-- What closes a list of operands or a parenthesis, or comes before the next operand. -/
def textMarks : List Char := [')', ']', ',']

def termMarks : List Char := ' ' :: textMarks

def baseMarks : List Char := '*' :: termMarks

/-- What follows a factor: not the operator of powers. -/
def EndsFactor (rest : List Char) : Prop := Ends baseMarks rest ∧ ¬ ['*', '*'] <+: rest

theorem Ends.factor {rest : List Char} (h : Ends termMarks rest) : EndsFactor rest := by
  refine ⟨h.mono (List.subset_cons_self _ _), ?_⟩
  rintro ⟨after, rfl⟩
  exact absurd (h '*' rfl) (by decide)

/-! ### Words -/

/-- A word ends at the next mark. -/
theorem word_append_inj {w w' r s : List Char} (hw : ∀ c ∈ w, isMark c = false)
    (hw' : ∀ c ∈ w', isMark c = false) (hr : ∀ c, r.head? = some c → isMark c = true)
    (hs : ∀ c, s.head? = some c → isMark c = true) (h : w ++ r = w' ++ s) : w = w' ∧ r = s := by
  induction w generalizing w' with
  | nil =>
      cases w' with
      | nil => exact ⟨rfl, h⟩
      | cons c w' =>
          obtain rfl : r = c :: (w' ++ s) := h
          have hmark := hr c rfl
          rw [hw' c List.mem_cons_self] at hmark
          cases hmark
  | cons c w ih =>
      obtain ⟨hc, hw⟩ := List.forall_mem_cons.mp hw
      cases w' with
      | nil =>
          obtain rfl : c :: (w ++ r) = s := h
          have hmark := hs c rfl
          rw [hc] at hmark
          cases hmark
      | cons c' w' =>
          obtain ⟨rfl, hrest⟩ := List.cons.inj h
          obtain ⟨rfl, hrs⟩ := ih hw (fun c hc => hw' c (List.mem_cons_of_mem _ hc)) hrest
          exact ⟨rfl, hrs⟩

/-- A text starts as its first term does. -/
theorem begins_chars {d : Dictionary} {e : Expr} (h : d.Legible e) :
    ∃ c rest, e.chars = c :: rest ∧ c ∉ textMarks := by
  obtain ⟨hne, hmem⟩ := shownTerms_of_legible h
  obtain ⟨t, ts, hts⟩ := List.exists_cons_of_ne_nil hne
  have hsigned : ∀ t ∈ e.shownTerms, t.Signed :=
    fun t ht => signed_of_legible (hmem t ht).1 (hmem t ht).2
  obtain ⟨c, rest, hc, hopen⟩ := opens_magnitudeChars (hmem t (by simp [hts])).1
  rw [chars_of_shownTerms hsigned hts, firstChars, hc]
  split
  · exact ⟨'-', _, rfl, by decide⟩
  · refine ⟨c, _, rfl, fun hmark => ?_⟩
    rcases hopen with rfl | hopen
    · revert hmark
      decide
    · simp only [textMarks, List.mem_cons, List.not_mem_nil, or_false] at hmark
      rcases hmark with rfl | rfl | rfl <;> cases hopen

/-! ### Kinds of parts -/

def AnyKind (_ : Expr) : Prop := True

abbrev PlainFactor (f : Expr) : Prop := f.isPlainFactor = true

abbrev NoSum (t : Expr) : Prop := ∀ us, t ≠ .sum us

/-- No sum, and with the same sign in front. -/
def TermLike (t u : Expr) : Prop := u.isNegative = t.isNegative ∧ NoSum u

/-! ### What is told apart -/

/-- The text shows this expression and no other one of its kind, and where it ends is determined
by what ends such a text. -/
def ToldApart (d : Dictionary) (kind : Expr → Prop) (shown : Expr → List Char)
    (EndsPart : List Char → Prop) (e : Expr) : Prop :=
  ∀ e', d.Legible e' → kind e' → ∀ r s, EndsPart r → EndsPart s →
    shown e ++ r = shown e' ++ s → e = e' ∧ r = s

section

variable {d : Dictionary} {kind : Expr → Prop} {lead : Expr → List Char} {marks : List Char}
  {EndsPart : List Char → Prop}

/-- What follows an item is the next item, or what comes after the list. -/
theorem ends_flatMap {es : List Expr} {r : List Char}
    (hlead : ∀ a, d.Legible a → kind a → ∀ r, EndsPart (lead a ++ r) ∧ ¬ Ends marks (lead a ++ r))
    (hends : ∀ r, Ends marks r → EndsPart r) (hes : ∀ e ∈ es, d.Legible e ∧ kind e)
    (hr : Ends marks r) : EndsPart (es.flatMap lead ++ r) := by
  cases es with
  | nil => exact hends r hr
  | cons e es =>
      obtain ⟨he, hkind⟩ := hes e List.mem_cons_self
      rw [List.flatMap_cons, List.append_assoc]
      exact (hlead e he hkind _).1

/-- Items are told apart one after the other if none of them starts with what ends the list. -/
theorem flatMap_append_inj {as bs : List Expr} {r s : List Char}
    (hlead : ∀ a, d.Legible a → kind a → ∀ r, EndsPart (lead a ++ r) ∧ ¬ Ends marks (lead a ++ r))
    (hends : ∀ r, Ends marks r → EndsPart r)
    (has : ∀ a ∈ as, d.Legible a ∧ kind a) (hbs : ∀ b ∈ bs, d.Legible b ∧ kind b)
    (hitem : ∀ a ∈ as, ToldApart d kind lead EndsPart a) (hr : Ends marks r) (hs : Ends marks s)
    (h : as.flatMap lead ++ r = bs.flatMap lead ++ s) : as = bs ∧ r = s := by
  induction as generalizing bs with
  | nil =>
      cases bs with
      | nil => exact ⟨rfl, h⟩
      | cons b bs =>
          obtain ⟨hb, hkind⟩ := hbs b List.mem_cons_self
          rw [List.flatMap_nil, List.nil_append, List.flatMap_cons, List.append_assoc] at h
          exact ((hlead b hb hkind _).2 (h ▸ hr)).elim
  | cons a as ih =>
      obtain ⟨⟨ha, hkind⟩, has⟩ := List.forall_mem_cons.mp has
      obtain ⟨hatold, hitem⟩ := List.forall_mem_cons.mp hitem
      cases bs with
      | nil =>
          rw [List.flatMap_nil, List.nil_append, List.flatMap_cons, List.append_assoc] at h
          exact ((hlead a ha hkind _).2 (h ▸ hs)).elim
      | cons b bs =>
          obtain ⟨⟨hb, hkind'⟩, hbs'⟩ := List.forall_mem_cons.mp hbs
          rw [List.flatMap_cons, List.flatMap_cons, List.append_assoc, List.append_assoc] at h
          obtain ⟨rfl, hrest⟩ := hatold b hb hkind' _ _ (ends_flatMap hlead hends has hr)
            (ends_flatMap hlead hends hbs' hs) h
          obtain ⟨rfl, hrs⟩ := ih has hbs' hitem hrest
          exact ⟨rfl, hrs⟩

/-- Lists that are not empty are told apart if their items are. -/
theorem separated_append_inj {separator : List Char} {text : Expr → List Char}
    {as bs : List Expr} {r s : List Char}
    (hlead : ∀ a, d.Legible a → kind a → ∀ r,
      EndsPart (separator ++ text a ++ r) ∧ ¬ Ends marks (separator ++ text a ++ r))
    (hends : ∀ r, Ends marks r → EndsPart r) (hne : as ≠ []) (hne' : bs ≠ [])
    (has : ∀ a ∈ as, d.Legible a ∧ kind a) (hbs : ∀ b ∈ bs, d.Legible b ∧ kind b)
    (hitem : ∀ a ∈ as, ToldApart d kind text EndsPart a) (hr : Ends marks r) (hs : Ends marks s)
    (h : separated separator text as ++ r = separated separator text bs ++ s) :
    as = bs ∧ r = s := by
  obtain ⟨a, as, rfl⟩ := List.exists_cons_of_ne_nil hne
  obtain ⟨b, bs, rfl⟩ := List.exists_cons_of_ne_nil hne'
  obtain ⟨-, has'⟩ := List.forall_mem_cons.mp has
  obtain ⟨⟨hb, hkind⟩, hbs'⟩ := List.forall_mem_cons.mp hbs
  obtain ⟨hatold, hitem'⟩ := List.forall_mem_cons.mp hitem
  rw [separated, separated, List.append_assoc, List.append_assoc] at h
  obtain ⟨rfl, hrest⟩ := hatold b hb hkind _ _ (ends_flatMap hlead hends has' hr)
    (ends_flatMap hlead hends hbs' hs) h
  have hled : ∀ a ∈ as, ToldApart d kind (fun e => separator ++ text e) EndsPart a := by
    intro a ha b hb hkind r s hr hs h
    rw [List.append_assoc, List.append_assoc] at h
    exact hitem' a ha b hb hkind r s hr hs (List.append_cancel_left h)
  obtain ⟨rfl, hrs⟩ := flatMap_append_inj hlead hends has' hbs' hled hr hs hrest
  exact ⟨rfl, hrs⟩

end

/-! ### Uses of fields -/

section

variable {d : Dictionary}

/-- The operands of a use of a field end at the closing bracket. -/
theorem listChars_append_inj (close : Char) {as bs : List Expr} {r s : List Char}
    (hclose : close ∈ textMarks) (hcomma : close ≠ ',')
    (has : ∀ a ∈ as, d.Legible a ∧ ToldApart d AnyKind chars (Ends textMarks) a)
    (hbs : ∀ b ∈ bs, d.Legible b)
    (h : listChars as ++ close :: r = listChars bs ++ close :: s) : as = bs ∧ r = s := by
  -- A text does not start with a closing bracket.
  have hnil {es : List Expr} {r s : List Char} (hes : ∀ e ∈ es, d.Legible e)
      (h : close :: r = listChars es ++ close :: s) : es = [] := by
    cases es with
    | nil => rfl
    | cons e es =>
        obtain ⟨c, rest, hc, hmark⟩ := begins_chars (hes e List.mem_cons_self)
        rw [listChars, separated, hc] at h
        obtain rfl : close = c := (List.cons.inj h).1
        exact (hmark hclose).elim
  by_cases hempty : as = []
  · subst hempty
    obtain rfl := hnil hbs h
    exact ⟨rfl, (List.cons.inj h).2⟩
  · by_cases hempty' : bs = []
    · subst hempty'
      exact (hempty (hnil (fun a ha => (has a ha).1) h.symm)).elim
    · have hlead : ∀ a, d.Legible a → AnyKind a → ∀ r,
          Ends textMarks ([',', ' '] ++ a.chars ++ r) ∧
            ¬ Ends [close] ([',', ' '] ++ a.chars ++ r) := by
        intro a _ _ r
        simpa [textMarks] using Ne.symm hcomma
      obtain ⟨rfl, hrs⟩ := separated_append_inj hlead
        (fun r hr => hr.mono (by simpa using hclose)) hempty hempty'
        (fun a ha => ⟨(has a ha).1, trivial⟩) (fun b hb => ⟨hbs b hb, trivial⟩)
        (fun a ha => (has a ha).2) (by simp) (by simp) h
      exact ⟨rfl, (List.cons.inj hrs).2⟩

/-- What stands behind a word starts with a mark. -/
theorem mark_of_groupChars {e : Expr} {r : List Char} (hr : Ends baseMarks r) :
    ∀ c, (e.groupChars ++ r).head? = some c → isMark c = true := by
  have hbase : ∀ c ∈ baseMarks, isMark c = true := by
    simp [baseMarks, termMarks, textMarks, isMark]
  intro c hc
  cases e with
  | call | access =>
      obtain rfl := Option.some.inj hc
      rfl
  | _ => exact hbase c (hr c hc)

theorem not_ends_groupChars {e : Expr} {r : List Char} (h : e.groupChars ≠ []) :
    ¬ Ends baseMarks (e.groupChars ++ r) := by
  cases e with
  | call | access =>
      show ¬ Ends baseMarks (_ :: _)
      rw [ends_cons]
      decide
  | _ => exact (h rfl).elim

/-- A word and the operands behind it. -/
theorem eq_of_word_eq {e e' : Expr} {r s : List Char} (he : d.Legible e) (he' : d.Legible e')
    (hword : e.isWord = true) (hword' : e'.isWord = true)
    (hoperands : ∀ c ∈ e.children, ToldApart d AnyKind chars (Ends textMarks) c)
    (hr : Ends baseMarks r) (hs : Ends baseMarks s) (hwords : e.wordChars = e'.wordChars)
    (h : e.groupChars ++ r = e'.groupChars ++ s) : e = e' ∧ r = s := by
  have hfield {f g : Field} (hf : d.fieldOf f.name = f) (hg : d.fieldOf g.name = g)
      (hname : f.name.toList = g.name.toList) : f = g := by
    rw [← hf, ← hg, String.toList_inj.mp hname]
  by_cases hgroup : e.groupChars = []
  · have hgroup' : e'.groupChars = [] := by
      by_contra hne
      rw [hgroup, List.nil_append] at h
      exact not_ends_groupChars hne (h ▸ hr)
    rw [hgroup, hgroup'] at h
    refine ⟨?_, h⟩
    rw [← leafOf_wordChars he hword hgroup, hwords, leafOf_wordChars he' hword' hgroup']
  · have hgroup' : e'.groupChars ≠ [] := by
      intro hnil
      rw [hnil, List.nil_append] at h
      exact not_ends_groupChars hgroup (h ▸ hs)
    cases e with
    | call f as =>
        obtain ⟨⟨-, hf⟩, has⟩ := allNodes_call.mp he
        cases e' with
        | call g bs =>
            obtain ⟨⟨-, hg⟩, hbs⟩ := allNodes_call.mp he'
            obtain ⟨rfl, hrs⟩ := listChars_append_inj ')' (by decide) (by decide)
              (fun a ha => ⟨has a ha, hoperands a ha⟩) hbs (by simpa [groupChars] using h)
            exact ⟨by rw [hfield hf hg hwords], hrs⟩
        | access g bs => simp [groupChars] at h
        | _ => exact (hgroup' rfl).elim
    | access f as =>
        obtain ⟨⟨-, hf⟩, has⟩ := allNodes_access.mp he
        cases e' with
        | access g bs =>
            obtain ⟨⟨-, hg⟩, hbs⟩ := allNodes_access.mp he'
            obtain ⟨rfl, hrs⟩ := listChars_append_inj ']' (by decide) (by decide)
              (fun a ha => ⟨has a ha, hoperands a ha⟩) hbs (by simpa [groupChars] using h)
            exact ⟨by rw [hfield hf hg hwords], hrs⟩
        | call g bs => simp [groupChars] at h
        | _ => exact (hgroup' rfl).elim
    | _ => exact (hgroup rfl).elim

/-! ### Bases, exponents, factors, terms and texts -/

variable {e : Expr}

/-- Words are not shown in parentheses. -/
theorem isWord_eq_of_baseChars {e' : Expr} {r s : List Char} (he : d.Legible e)
    (hword : e.isWord = true) (h : e.baseChars ++ r = e'.baseChars ++ s) : e'.isWord = true := by
  by_contra hword'
  obtain ⟨c, rest, hc, hmark⟩ := opens_wordChars he hword
  rw [baseChars_of_isWord hword, chars_of_isWord hword, hc, baseChars_of_not_isWord hword'] at h
  obtain rfl : c = '(' := (List.cons.inj h).1
  cases hmark

theorem base_of_isWord (he : d.Legible e) (hword : e.isWord = true)
    (hoperands : ∀ c ∈ e.children, ToldApart d AnyKind chars (Ends textMarks) c) :
    ToldApart d AnyKind baseChars (Ends baseMarks) e := by
  intro e' he' _ r s hr hs h
  have hword' := isWord_eq_of_baseChars he hword h
  rw [baseChars_of_isWord hword, baseChars_of_isWord hword', chars_of_isWord hword,
    chars_of_isWord hword', List.append_assoc, List.append_assoc] at h
  obtain ⟨hwords, hgroups⟩ := word_append_inj (wordChars_of_isWord he hword).2
    (wordChars_of_isWord he' hword').2 (mark_of_groupChars hr) (mark_of_groupChars hs) h
  exact eq_of_word_eq he he' hword hword' hoperands hr hs hwords hgroups

theorem base_of_text (hword : ¬ e.isWord = true)
    (h : ToldApart d AnyKind chars (Ends textMarks) e) :
    ToldApart d AnyKind baseChars (Ends baseMarks) e := by
  intro e' he' hkind r s hr hs heq
  have hword' : ¬ e'.isWord = true :=
    fun hword' => hword (isWord_eq_of_baseChars he' hword' heq.symm)
  rw [baseChars_of_not_isWord hword, baseChars_of_not_isWord hword', List.cons_append,
    List.cons_append, List.append_assoc, List.append_assoc] at heq
  obtain ⟨rfl, hrs⟩ := h e' he' hkind _ _ (by simp [textMarks]) (by simp [textMarks])
    (List.cons.inj heq).2
  exact ⟨rfl, (List.cons.inj hrs).2⟩

/-- A literal with a sign is the only exponent that is not shown as a base. -/
theorem exponentChars_cases (he : d.Legible e) : e.exponentChars = e.baseChars ∨
    ∃ k, e = int k ∧ d.Legible (int (-k)) ∧ (int (-k)).isWord = true ∧
      e.exponentChars = '-' :: (int (-k)).baseChars := by
  by_cases h : ∃ n, e = .lit n ∧ n.isNegative = true
  · obtain ⟨n, rfl, hn⟩ := h
    obtain ⟨k, rfl, hmin⟩ := he.self
    have hword : (int (-k)).isWord = true := by
      simpa [int, isWord] using Literal.not_isNegative_neg hmin hn
    refine .inr ⟨k, rfl, (legible_neg hmin hn).1, hword, ?_⟩
    rw [baseChars_of_isWord hword]
    exact Literal.toList_text_of_isNegative hmin hn
  · exact .inl (exponentChars_eq fun n heq hn => h ⟨n, heq, hn⟩)

theorem exponent_of_base (he : d.Legible e)
    (h : ToldApart d AnyKind baseChars (Ends baseMarks) e) :
    ToldApart d AnyKind exponentChars EndsFactor e := by
  intro e' he' hkind r s hr hs heq
  rcases exponentChars_cases he with hbase | ⟨k, rfl, hk, hword, hsigned⟩ <;>
    rcases exponentChars_cases he' with hbase' | ⟨k', rfl, hk', hword', hsigned'⟩
  · rw [hbase, hbase'] at heq
    exact h e' he' hkind r s hr.1 hs.1 heq
  · rw [hbase, hsigned'] at heq
    exact ((opens_baseChars he).ne_cons (by decide) rfl _ _ heq).elim
  · rw [hsigned, hbase'] at heq
    exact ((opens_baseChars he').ne_cons (by decide) rfl _ _ heq.symm).elim
  · rw [hsigned, hsigned'] at heq
    obtain ⟨hopposite, hrs⟩ := base_of_isWord hk hword (by simp [int, children]) _ hk' hkind r s
      hr.1 hs.1 (List.cons.inj heq).2
    have hneg : -k = -k' := Literal.int.inj (lit.inj hopposite)
    have hkk : k = k' := by rw [← Int64.neg_neg (a := k), hneg, Int64.neg_neg]
    exact ⟨congrArg int hkk, hrs⟩

theorem factor_pow {base exponent : Expr}
    (hbase : ToldApart d AnyKind baseChars (Ends baseMarks) base)
    (hexponent : ToldApart d AnyKind exponentChars EndsFactor exponent) :
    ToldApart d PlainFactor factorChars EndsFactor (pow base exponent) := by
  intro e' he' hplain r s hr hs h
  rw [factorChars_pow, List.append_assoc] at h
  by_cases hpow : ∃ base' exponent', e' = .pow base' exponent'
  · obtain ⟨base', exponent', rfl⟩ := hpow
    obtain ⟨-, hlegible, hlegible'⟩ := allNodes_pow.mp he'
    rw [factorChars_pow, List.append_assoc] at h
    obtain ⟨rfl, hrest⟩ := hbase base' hlegible trivial _ _ (by simp [baseMarks])
      (by simp [baseMarks]) h
    obtain ⟨rfl, hrs⟩ := hexponent exponent' hlegible' trivial r s hr hs
      (List.cons.inj (List.cons.inj hrest).2).2
    exact ⟨rfl, hrs⟩
  · rw [factorChars_eq_baseChars hplain fun b x heq => hpow ⟨b, x, heq⟩] at h
    obtain ⟨-, hrest⟩ := hbase e' he' trivial _ _ (by simp [baseMarks]) hs.1 h
    exact (hs.2 ⟨_, hrest⟩).elim

theorem factor_of_base (hplain : PlainFactor e)
    (hpow : ∀ base exponent, e ≠ .pow base exponent)
    (h : ToldApart d AnyKind baseChars (Ends baseMarks) e) :
    ToldApart d PlainFactor factorChars EndsFactor e := by
  intro e' he' hplain' r s hr hs heq
  rw [factorChars_eq_baseChars hplain hpow] at heq
  by_cases hpow' : ∃ base exponent, e' = .pow base exponent
  · obtain ⟨base, exponent, rfl⟩ := hpow'
    obtain ⟨-, hlegible, -⟩ := allNodes_pow.mp he'
    rw [factorChars_pow, List.append_assoc] at heq
    obtain ⟨-, hrest⟩ := h base hlegible trivial _ _ hr.1 (by simp [baseMarks]) heq
    exact (hr.2 ⟨_, hrest.symm⟩).elim
  · rw [factorChars_eq_baseChars hplain' fun b x heq => hpow' ⟨b, x, heq⟩] at heq
    exact h e' he' trivial r s hr.1 hs.1 heq

theorem term_of_factors (he : d.Legible e)
    (h : ∀ f ∈ e.magnitude, ToldApart d PlainFactor factorChars EndsFactor f) :
    ToldApart d (TermLike e) magnitudeChars (Ends termMarks) e := by
  intro u hu hkind r s hr hs heq
  obtain ⟨hne, hmem⟩ := magnitude_of_legible he
  obtain ⟨hne', hmem'⟩ := magnitude_of_legible hu
  -- The next factor does not make an operator of powers of the separator.
  have hlead : ∀ f, d.Legible f → PlainFactor f → ∀ r,
      EndsFactor (['*'] ++ f.factorChars ++ r) ∧
        ¬ Ends termMarks (['*'] ++ f.factorChars ++ r) := by
    intro f hf hplain r
    refine ⟨⟨by simp [baseMarks], ?_⟩, by simp [termMarks, textMarks]⟩
    rintro ⟨after, hafter⟩
    exact (opens_factorChars hf hplain).ne_cons (by decide) rfl r after
      (List.cons.inj hafter).2.symm
  obtain ⟨hmagnitude, hrs⟩ := separated_append_inj hlead (fun _ => Ends.factor) hne hne' hmem hmem'
    h hr hs heq
  refine ⟨?_, hrs⟩
  rw [← ofMagnitude_eq he, ← ofMagnitude_eq hu, hkind.1, hmagnitude]

theorem firstChars_append_inj {t u : Expr} {r s : List Char} (ht : d.Legible t)
    (hu : d.Legible u) (h : t.firstChars ++ r = u.firstChars ++ s) :
    u.isNegative = t.isNegative ∧ t.magnitudeChars ++ r = u.magnitudeChars ++ s := by
  have hopen (e : Expr) (he : d.Legible e) (x y : List Char) : e.magnitudeChars ++ x ≠ '-' :: y :=
    (opens_magnitudeChars he).ne_cons (by decide) rfl x y
  rw [firstChars, firstChars] at h
  cases hnegative : t.isNegative <;> cases hnegative' : u.isNegative <;>
    rw [hnegative, hnegative'] at h
  · exact ⟨rfl, h⟩
  · exact (hopen t ht _ _ h).elim
  · exact (hopen u hu _ _ h.symm).elim
  · exact ⟨rfl, (List.cons.inj h).2⟩

theorem laterChars_append_inj {t u : Expr} {r s : List Char}
    (h : t.laterChars ++ r = u.laterChars ++ s) :
    u.isNegative = t.isNegative ∧ t.magnitudeChars ++ r = u.magnitudeChars ++ s := by
  obtain ⟨hsign, hrest⟩ := List.cons.inj (List.cons.inj h).2
  refine ⟨?_, (List.cons.inj hrest).2⟩
  cases hnegative : t.isNegative <;> cases hnegative' : u.isNegative <;>
    simp [hnegative, hnegative'] at hsign ⊢

theorem text_of_terms (he : d.Legible e)
    (h : ∀ t ∈ e.shownTerms, ToldApart d (TermLike t) magnitudeChars (Ends termMarks) t) :
    ToldApart d AnyKind chars (Ends textMarks) e := by
  intro e' he' _ r s hr hs heq
  obtain ⟨hne, hmem⟩ := shownTerms_of_legible he
  obtain ⟨hne', hmem'⟩ := shownTerms_of_legible he'
  obtain ⟨t, ts, hts⟩ := List.exists_cons_of_ne_nil hne
  obtain ⟨u, us, hus⟩ := List.exists_cons_of_ne_nil hne'
  rw [chars_of_shownTerms (fun t ht => signed_of_legible (hmem t ht).1 (hmem t ht).2) hts,
    chars_of_shownTerms (fun t ht => signed_of_legible (hmem' t ht).1 (hmem' t ht).2) hus,
    List.append_assoc, List.append_assoc] at heq
  rw [hts] at hmem h
  rw [hus] at hmem'
  obtain ⟨⟨ht, -⟩, hmemLater⟩ := List.forall_mem_cons.mp hmem
  obtain ⟨⟨hu, husum⟩, hmemLater'⟩ := List.forall_mem_cons.mp hmem'
  obtain ⟨hterm, hterms⟩ := List.forall_mem_cons.mp h
  have hlead : ∀ v, d.Legible v → NoSum v → ∀ r,
      Ends termMarks (v.laterChars ++ r) ∧ ¬ Ends textMarks (v.laterChars ++ r) :=
    fun v _ _ r => ⟨by simp [laterChars, termMarks], by simp [laterChars, textMarks]⟩
  have hends (r : List Char) (hr : Ends textMarks r) : Ends termMarks r :=
    hr.mono (List.subset_cons_self _ _)
  have hitem : ∀ v ∈ ts, ToldApart d NoSum laterChars (Ends termMarks) v := by
    intro v hv w hw hsum r s hr hs heq
    obtain ⟨hsign, heq⟩ := laterChars_append_inj heq
    exact hterms v hv w hw ⟨hsign, hsum⟩ r s hr hs heq
  obtain ⟨hsign, heq⟩ := firstChars_append_inj ht hu heq
  obtain ⟨rfl, hrest⟩ := hterm u hu ⟨hsign, husum⟩ _ _ (ends_flatMap hlead hends hmemLater hr)
    (ends_flatMap hlead hends hmemLater' hs) heq
  obtain ⟨rfl, hrs⟩ := flatMap_append_inj hlead hends hmemLater hmemLater' hitem hr hs hrest
  refine ⟨?_, hrs⟩
  rw [← ofTerms_shownTerms he, ← ofTerms_shownTerms he', hts, hus]

/-- The expression is told apart in whatever place of a text it stands. -/
structure UniquelyRead (d : Dictionary) (e : Expr) : Prop where
  text : ToldApart d AnyKind chars (Ends textMarks) e
  term : NoSum e → ToldApart d (TermLike e) magnitudeChars (Ends termMarks) e
  factor : PlainFactor e → ToldApart d PlainFactor factorChars EndsFactor e
  base : ToldApart d AnyKind baseChars (Ends baseMarks) e

/-- Whatever is no sum is the only term of its text. -/
theorem text_of_term (he : d.Legible e) (hsum : NoSum e)
    (h : ToldApart d (TermLike e) magnitudeChars (Ends termMarks) e) :
    ToldApart d AnyKind chars (Ends textMarks) e := by
  refine text_of_terms he ?_
  cases e with
  | sum us => exact (hsum us rfl).elim
  | _ => exact List.forall_mem_singleton.mpr h

/-- Whatever stands without parentheses as a base. -/
theorem uniquelyRead_of_isWord (he : d.Legible e) (hword : e.isWord = true)
    (hoperands : ∀ c ∈ e.children, ToldApart d AnyKind chars (Ends textMarks) c) :
    UniquelyRead d e := by
  have hbase := base_of_isWord he hword hoperands
  have hplain : PlainFactor e := by
    cases e with
    | lit => simpa [PlainFactor, isPlainFactor, isNegative, isWord] using hword
    | sum | prod | pow => cases hword
    | _ => rfl
  have hsum : NoSum e := by
    rintro us rfl
    cases hword
  have hfactor := factor_of_base hplain (by rintro b x rfl; cases hword) hbase
  have hmagnitude : e.magnitude = [e] := by
    cases e with
    | lit => exact if_neg (by simpa [isWord] using hword)
    | prod => cases hword
    | _ => rfl
  have hterm := term_of_factors he (hmagnitude ▸ List.forall_mem_singleton.mpr hfactor)
  exact ⟨text_of_term he hsum hterm, fun _ => hterm, fun _ => hfactor, hbase⟩

theorem uniquelyRead_sum {terms : List Expr} (he : d.Legible (.sum terms))
    (h : ∀ t ∈ terms, UniquelyRead d t) : UniquelyRead d (.sum terms) := by
  have htext : ToldApart d AnyKind chars (Ends textMarks) (sum terms) := by
    refine text_of_terms he fun t ht => ?_
    have hmem := (shownTerms_perm terms).mem_iff.mp ht
    exact (h t hmem).term ((shownTerms_of_legible he).2 t ht).2
  have hbase := base_of_text (by simp [isWord]) htext
  exact ⟨htext, fun hsum => (hsum terms rfl).elim,
    fun hplain => factor_of_base hplain (by simp) hbase, hbase⟩

/-- Whatever is shown by its factors, and in parentheses as a base. -/
theorem uniquelyRead_of_factors (he : d.Legible e) (hword : ¬ e.isWord = true)
    (hsum : NoSum e) (h : ∀ f ∈ e.magnitude, PlainFactor f →
      ToldApart d PlainFactor factorChars EndsFactor f) :
    UniquelyRead d e := by
  have hterm := term_of_factors he fun f hf => h f hf ((magnitude_of_legible he).2 f hf).2
  have htext := text_of_term he hsum hterm
  refine ⟨htext, fun _ => hterm, fun hplain => ?_, base_of_text hword htext⟩
  cases e with
  | pow => exact h _ List.mem_cons_self hplain
  | lit =>
      exact (hword (by simpa [PlainFactor, isPlainFactor, isNegative, isWord] using hplain)).elim
  | prod => simp [PlainFactor, isPlainFactor] at hplain
  | sum us => exact (hsum us rfl).elim
  | sym | dim | call | access => exact (hword rfl).elim

theorem uniquelyRead_lit {n : Literal} (he : d.Legible (.lit n)) : UniquelyRead d (.lit n) := by
  by_cases hword : (lit n).isWord = true
  · exact uniquelyRead_of_isWord he hword (by simp [children])
  · refine uniquelyRead_of_factors he hword (fun _ => by simp) fun f hf hplain => ?_
    -- The sign is in front of a literal without one.
    have hlegible := ((magnitude_of_legible he).2 f hf).1
    have hnegative : n.isNegative = true := by simpa [isWord] using hword
    rw [magnitude, if_pos hnegative] at hf
    obtain rfl := List.mem_singleton.mp hf
    have hword' : (lit n.neg).isWord = true := by
      simpa [PlainFactor, isPlainFactor, isNegative, isWord] using hplain
    exact (uniquelyRead_of_isWord hlegible hword' (by simp [children])).factor hplain

/-- The factors of the text are those of the product, with another literal in front perhaps. -/
theorem mem_magnitude_prod {factors : List Expr} {f : Expr} (he : d.Legible (.prod factors))
    (h : f ∈ (prod factors).magnitude) : f ∈ factors ∨ f.isLiteral = true := by
  obtain ⟨f', g, rest, rfl, hliteral | ⟨k, rfl, hmin⟩⟩ := exists_front_of_legible he
  · rw [(prod_of_not_literal hliteral (g :: rest)).2] at h
    exact .inl h
  · rcases prod_lit_cases hmin (g :: rest) with ⟨-, -, heq⟩ | ⟨-, -, -, heq⟩ | ⟨-, -, heq⟩ <;>
      rw [heq] at h
    · exact .inl (List.mem_cons_of_mem _ h)
    · rcases List.mem_cons.mp h with rfl | hmem
      · exact .inr rfl
      · exact .inl (List.mem_cons_of_mem _ hmem)
    · exact .inl h

theorem uniquelyRead (he : d.Legible e) : UniquelyRead d e := by
  induction e with
  | lit n => exact uniquelyRead_lit he
  | sym | dim => exact uniquelyRead_of_isWord he rfl (by simp [children])
  | call f es ih | access f es ih =>
      exact uniquelyRead_of_isWord he rfl fun c hc => (ih c hc (he.of_mem_children hc)).text
  | sum terms ih => exact uniquelyRead_sum he fun t ht => ih t ht (he.of_mem_children ht)
  | prod factors ih =>
      refine uniquelyRead_of_factors he (by simp [isWord]) (fun _ => by simp) fun f hf hplain => ?_
      have hlegible := ((magnitude_of_legible he).2 f hf).1
      rcases mem_magnitude_prod he hf with hmem | hliteral
      · exact (ih f hmem hlegible).factor hplain
      · obtain ⟨n, hn⟩ := Option.isSome_iff_exists.mp hliteral
        obtain rfl := eq_lit_of_literal? hn
        exact (uniquelyRead_lit hlegible).factor hplain
  | pow base exponent ihb ihe =>
      obtain ⟨-, hb, hx⟩ := allNodes_pow.mp he
      refine uniquelyRead_of_factors he (by simp [isWord]) (fun _ => by simp) fun f hf _ => ?_
      obtain rfl := List.mem_singleton.mp hf
      exact factor_pow (ihb hb).base (exponent_of_base hx (ihe hx).base)

end

/-! ### Canonical expressions -/

def shownVariable? : Expr → Option Variable
  | .sym s => some (.inl s)
  | .dim v => some (.inr v)
  | _ => none

def usedField? : Expr → Option Field
  | .call f _ => some f
  | .access f _ => some f
  | _ => none

/-- All names are names, no two variables have the same one, and no two fields have. -/
structure Telling (nodes : List Expr) : Prop where
  isName_variable : ∀ v ∈ nodes.filterMap shownVariable?, isName v.name = true
  isName_field : ∀ f ∈ nodes.filterMap usedField?, isName f.name = true
  variable_inj : ∀ u ∈ nodes.filterMap shownVariable?, ∀ v ∈ nodes.filterMap shownVariable?,
    u.name = v.name → u = v
  field_inj : ∀ f ∈ nodes.filterMap usedField?, ∀ g ∈ nodes.filterMap usedField?,
    f.name = g.name → f = g

/-- The first variable and the first field with each name. -/
def Dictionary.ofNodes (nodes : List Expr) : Dictionary where
  variableOf name := ((nodes.filterMap shownVariable?).find? fun v => v.name = name).getD
    (.inl ⟨name⟩)
  fieldOf name := ((nodes.filterMap usedField?).find? fun f => f.name = name).getD
    ⟨name, .function, []⟩

theorem getD_find?_eq {α : Type} {xs : List α} {name : α → String} {x default : α} (hx : x ∈ xs)
    (hinj : ∀ y ∈ xs, ∀ z ∈ xs, name y = name z → y = z) :
    (xs.find? fun y => name y = name x).getD default = x := by
  cases hfind : xs.find? fun y => name y = name x with
  | none => simpa using List.find?_eq_none.mp hfind x hx
  | some y =>
      have hname : name y = name x := by simpa using List.find?_some hfind
      exact hinj y (List.mem_of_find?_eq_some hfind) x hx hname

namespace Telling

variable {nodes : List Expr} (h : Telling nodes)
include h

theorem variableOf_ofNodes {v : Variable} (hv : v ∈ nodes.filterMap shownVariable?) :
    isName v.name = true ∧ (Dictionary.ofNodes nodes).variableOf v.name = v :=
  ⟨h.isName_variable v hv, getD_find?_eq hv h.variable_inj⟩

theorem fieldOf_ofNodes {f : Field} (hf : f ∈ nodes.filterMap usedField?) :
    isName f.name = true ∧ (Dictionary.ofNodes nodes).fieldOf f.name = f :=
  ⟨h.isName_field f hf, getD_find?_eq hf h.field_inj⟩

end Telling

/-- Literals come before all other expressions. -/
theorem isLiteral_of_isLE {a b : Expr} (h : (compare a b).isLE = true)
    (hb : b.isLiteral = true) : a.isLiteral = true := by
  cases b with
  | lit n =>
      cases a with
      | lit => rfl
      | _ => cases h
  | _ => cases hb

theorem eq_filter_append_filter {es : List Expr} (h : es.Pairwise fun a b => (compare a b).isLE) :
    es = es.filter isLiteral ++ es.filter fun e => !e.isLiteral := by
  induction h with
  | nil => rfl
  | @cons e es hhead _ ih =>
      by_cases he : e.isLiteral = true
      · rw [List.filter_cons_of_pos he, List.filter_cons_of_neg (by simp [he]), List.cons_append,
          ← ih]
      · have hrest : ∀ u ∈ es, ¬ u.isLiteral = true :=
          fun u hu hliteral => he (isLiteral_of_isLE (hhead u hu) hliteral)
        rw [List.filter_cons_of_neg he, List.filter_cons_of_pos (by simpa using he),
          List.filter_eq_nil_iff.mpr hrest, List.filter_eq_self.mpr (by simpa using hrest)]
        rfl

/-- The opposite of a literal in front of a term is shown behind its sign. -/
def hasOpposite : Expr → Bool
  | .lit (.int n) => n ≠ Int64.minValue
  | _ => true

/-- No integer is the least one, whose opposite is none. -/
def Opposable (e : Expr) : Prop := AllNodes (fun n => n.hasOpposite = true) e

instance (e : Expr) : Decidable e.Opposable :=
  inferInstanceAs (Decidable (AllNodes (fun n => n.hasOpposite = true) e))

/-- Canonical expressions without floats can be read off their texts. -/
theorem legible_of_canonical {nodes : List Expr} (hnames : Telling nodes) {e : Expr}
    (hsub : ∀ n ∈ e.nodes, n ∈ nodes) (hcanonical : e.Canonical) (hfloat : e.FloatFree)
    (hopposite : e.Opposable) : (Dictionary.ofNodes nodes).Legible e := by
  intro n hn
  have hmem := hsub n hn
  have hcanonical : n.Canonical := hcanonical.of_mem_nodes hn
  have hfloat : n.FloatFree := hfloat.of_mem_nodes hn
  cases n with
  | lit n =>
      obtain ⟨k, rfl⟩ := Literal.exists_of_isInt (m := n) (by simpa [isFloat] using hfloat.self)
      exact ⟨k, rfl, by simpa [hasOpposite] using hopposite.of_mem_nodes hn |>.self⟩
  | sym | dim => exact hnames.variableOf_ofNodes (List.mem_filterMap.mpr ⟨_, hmem, rfl⟩)
  | call | access => exact hnames.fieldOf_ofNodes (List.mem_filterMap.mpr ⟨_, hmem, rfl⟩)
  | sum terms =>
      obtain ⟨htidy, hsorted, hlength⟩ := exists_collected_of_sum hcanonical hfloat
      refine ⟨hlength, fun t ht => ?_, ?_⟩
      · rw [hsorted] at ht
        exact Collected.ne_sum_of_mem_terms htidy ((Ascending.sort_perm _).mem_iff.mp ht)
      · rw [hsorted]
        exact eq_filter_append_filter (Ascending.sorted_sort _)
  | prod factors =>
      obtain ⟨m, hproper, hm⟩ := exists_proper_of_prod hcanonical hfloat
      have hfactors := (hm ▸ Multiplied.product hproper).canonicalFactors
      exact ⟨hfactors.two_le, hfactors.not_prod, hfactors.literal_first⟩
  | pow => trivial

/-- Canonical expressions without floats are told apart by their texts, at any nesting, if no two
variables and no two fields in them have the same name. -/
theorem text_injective {a b : Expr} (ha : a.Canonical) (hb : b.Canonical) (hafloat : a.FloatFree)
    (hbfloat : b.FloatFree) (haopposite : a.Opposable) (hbopposite : b.Opposable)
    (hnames : Telling (a.nodes ++ b.nodes)) (h : a.text = b.text) : a = b := by
  have ha := legible_of_canonical hnames (fun _ => List.mem_append_left _) ha hafloat haopposite
  have hb := legible_of_canonical hnames (fun _ => List.mem_append_right _) hb hbfloat hbopposite
  have hchars : a.chars ++ [] = b.chars ++ [] := by rw [chars, chars, h]
  exact ((uniquelyRead ha).text b hb trivial [] [] (ends_nil _) (ends_nil _) hchars).1

/-- The expression that is shown as `-2*h_x*(x + 1) + u[x - 1]**2 + 4`. -/
def residual : Expr :=
  let x := Expr.dim (.root "x" .space)
  sumOf [.int 4, productOf [.sym ⟨"h_x"⟩, .int (-2), sumOf [.int 1, x]],
    power (.access (.bare "u" [.root "x" .space]) [sumOf [x, .int (-1)]]) (.int 2)]

/-- The same expression, put together in another order. -/
def regroupedResidual : Expr :=
  let x := Expr.dim (.root "x" .space)
  sumOf [power (.access (.bare "u" [.root "x" .space]) [sumOf [.int 2, x, .int (-3)]]) (.int 2),
    .int 7, productOf [sumOf [x, .int 1], productOf [.int (-2), .sym ⟨"h_x"⟩]], .int (-3)]

theorem text_injective_residual :
    residual.text = "-2*h_x*(x + 1) + u[x - 1]**2 + 4" ∧ regroupedResidual.text = residual.text ∧
      regroupedResidual = residual := by
  have htext : residual.text = "-2*h_x*(x + 1) + u[x - 1]**2 + 4" := by decide
  have hsame : regroupedResidual.text = residual.text := by decide
  have hnames : Telling (regroupedResidual.nodes ++ residual.nodes) :=
    ⟨by decide, by decide, by decide, by decide⟩
  exact ⟨htext, hsame, text_injective (by decide) (by decide) (by decide) (by decide) (by decide)
    (by decide) hnames hsame⟩

end Expr

end GridAccess
