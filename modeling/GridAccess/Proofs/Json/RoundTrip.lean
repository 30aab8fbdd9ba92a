import GridAccess.Json.Reader
import GridAccess.Proofs.Json.Token

/-!
Reading undoes writing. A written value is split into the words of the value, whatever the level at
which it is written, and these words are read as the value, whatever follows them. The white space
between the words is lost on the way.
-/

namespace GridAccess.Json

/-- A value whose strings have a text and whose numbers are integers without a sign. -/
inductive Plain : Json → Prop where
  | null : Plain .null
  | bool (b : Bool) : Plain (.bool b)
  | nat (n : Nat) : Plain (.nat n)
  | str (s : String) : Plain (.str (some s))
  | arr {items : List Json} : (∀ item ∈ items, Plain item) → Plain (.arr items)
  | obj {members : List (Option String × Json)} : (∀ m ∈ members, m.1.isSome = true) →
    (∀ m ∈ members, Plain m.2) → Plain (.obj members)

mutual

/-- The words that a value is written with. -/
def words : Json → List Token
  | .null => [.null]
  | .bool b => [.bool b]
  | .nat n => [.nat n]
  | .number text => [.number text]
  | .str text => [.str text]
  | .arr [] => [.openArr, .closeArr]
  | .arr (item :: items) => .openArr :: (item.words ++ itemsWords items)
  | .obj [] => [.openObj, .closeObj]
  | .obj ((name, member) :: members) =>
    .openObj :: .str name :: .colon :: (member.words ++ membersWords members)

/-- The words after the first item. -/
def itemsWords : List Json → List Token
  | [] => [.closeArr]
  | item :: items => .comma :: (item.words ++ itemsWords items)

/-- The words after the first member. -/
def membersWords : List (Option String × Json) → List Token
  | [] => [.closeObj]
  | (name, member) :: members =>
    .comma :: .str name :: .colon :: (member.words ++ membersWords members)

end

/-! ### Written values are split into their words -/

theorem isSpace_of_mem_lineBreak {level : Nat} : ∀ c ∈ lineBreak level, isSpace c = true := by
  intro c hc
  rcases List.mem_cons.mp hc with rfl | hc
  · rfl
  · rw [List.eq_of_mem_replicate hc]
    rfl

theorem endsNumber_lineBreak (level : Nat) (rest : List Char) :
    EndsNumber (lineBreak level ++ rest) :=
  .cons _ (by decide)

theorem endsNumber_items (level outer : Nat) (items : List Json) (rest : List Char) :
    EndsNumber (itemsChars level items ++ (lineBreak outer ++ ']' :: rest)) := by
  cases items with
  | nil => exact endsNumber_lineBreak _ _
  | cons item items => exact .cons _ (by decide)

theorem endsNumber_members (level outer : Nat) (members : List (Option String × Json))
    (rest : List Char) :
    EndsNumber (membersChars level members ++ (lineBreak outer ++ '\x7d' :: rest)) := by
  cases members with
  | nil => exact endsNumber_lineBreak _ _
  | cons m members => exact .cons _ (by decide)

/-- Written at this level, the value is split into its words. -/
def Splits (level : Nat) (j : Json) : Prop :=
  ∀ {rest : List Char} {tokens : List Token}, EndsNumber rest → SplitsInto rest tokens →
    SplitsInto (j.chars level ++ rest) (j.words ++ tokens)

section

variable {level : Nat} {rest : List Char} {tokens : List Token}
  (hrest : SplitsInto rest tokens)
include hrest

/-- Every item stands on a line of its own. -/
theorem splitsInto_item {item : Json} (h : item.Splits level) (hends : EndsNumber rest) :
    SplitsInto (lineBreak level ++ (item.chars level ++ rest)) (item.words ++ tokens) :=
  (h hends hrest).spaces isSpace_of_mem_lineBreak

theorem splitsInto_member {m : Option String × Json} (hname : m.1.isSome = true)
    (h : m.2.Splits level) (hends : EndsNumber rest) :
    SplitsInto (lineBreak level ++ (stringChars m.1 ++ ':' :: ' ' :: (m.2.chars level ++ rest)))
      (.str m.1 :: .colon :: (m.2.words ++ tokens)) := by
  obtain ⟨name, hname⟩ := Option.isSome_iff_exists.mp hname
  have hcolon := ((h hends hrest).space (c := ' ') rfl).mark (c := ':') (by decide) fun _ => rfl
  rw [hname]
  exact (hcolon.stringChars name).spaces isSpace_of_mem_lineBreak

theorem splitsInto_items (outer : Nat) {items : List Json} (h : ∀ item ∈ items, item.Splits level) :
    SplitsInto (itemsChars level items ++ (lineBreak outer ++ ']' :: rest))
      (itemsWords items ++ tokens) := by
  induction items with
  | nil => exact (hrest.mark (c := ']') (by decide) fun _ => rfl).spaces isSpace_of_mem_lineBreak
  | cons item items ih =>
      obtain ⟨hitem, hitems⟩ := List.forall_mem_cons.mp h
      have hline := splitsInto_item (ih hitems) hitem (endsNumber_items level outer items rest)
      simpa [itemsChars, itemsWords] using hline.mark (c := ',') (by decide) fun _ => rfl

theorem splitsInto_members (outer : Nat) {members : List (Option String × Json)}
    (hnames : ∀ m ∈ members, m.1.isSome = true) (h : ∀ m ∈ members, m.2.Splits level) :
    SplitsInto (membersChars level members ++ (lineBreak outer ++ '\x7d' :: rest))
      (membersWords members ++ tokens) := by
  induction members with
  | nil =>
      exact (hrest.mark (c := '\x7d') (by decide) fun _ => rfl).spaces isSpace_of_mem_lineBreak
  | cons m members ih =>
      obtain ⟨hm, hmembers⟩ := List.forall_mem_cons.mp h
      obtain ⟨hname, hrestNames⟩ := List.forall_mem_cons.mp hnames
      have hline := splitsInto_member (ih hrestNames hmembers) hname hm
        (endsNumber_members level outer members rest)
      simpa [membersChars, membersWords] using hline.mark (c := ',') (by decide) fun _ => rfl

end

theorem Plain.splits {j : Json} (h : j.Plain) (level : Nat) : j.Splits level := by
  induction h generalizing level with
  | null => exact fun _ hrest => hrest.word ['u', 'l', 'l'] (by decide) rfl
  | bool b =>
      intro rest tokens _ hrest
      cases b with
      | true => exact hrest.word ['r', 'u', 'e'] (by decide) rfl
      | false => exact hrest.word ['a', 'l', 's', 'e'] (by decide) rfl
  | nat n => exact fun hends hrest => hrest.toDigits hends n
  | str s => exact fun _ hrest => hrest.stringChars s
  | @arr items h ih =>
      intro rest tokens _ hrest
      cases items with
      | nil =>
          have hclose := hrest.mark (c := ']') (by decide) fun _ => rfl
          exact hclose.mark (c := '[') (by decide) fun _ => rfl
      | cons item items =>
          obtain ⟨hitem, hitems⟩ := List.forall_mem_cons.mp ih
          have htail := splitsInto_items hrest level
            fun item hmem => hitems item hmem (level + 1)
          have hline := splitsInto_item htail (hitem (level + 1)) (endsNumber_items _ _ _ _)
          simpa [chars, words] using hline.mark (c := '[') (by decide) fun _ => rfl
  | @obj members hnames h ih =>
      intro rest tokens _ hrest
      cases members with
      | nil =>
          have hclose := hrest.mark (c := '\x7d') (by decide) fun _ => rfl
          exact hclose.mark (c := '\x7b') (by decide) fun _ => rfl
      | cons m members =>
          obtain ⟨hm, hmembers⟩ := List.forall_mem_cons.mp ih
          obtain ⟨hname, hrestNames⟩ := List.forall_mem_cons.mp hnames
          have htail := splitsInto_members hrest level hrestNames
            fun m hmem => hmembers m hmem (level + 1)
          have hline :=
            splitsInto_member htail hname (hm (level + 1)) (endsNumber_members _ _ _ _)
          simpa [chars, words] using hline.mark (c := '\x7b') (by decide) fun _ => rfl

/-! ### Words are read as the value -/

theorem words_append_ne_closeArr (j : Json) (tokens rest : List Token) :
    j.words ++ tokens ≠ .closeArr :: rest := by
  cases j with
  | arr items => cases items <;> simp [words]
  | obj members => cases members <;> simp [words]
  | null | bool | nat | number | str => simp [words]

theorem length_words_pos (j : Json) : 0 < j.words.length := by
  cases j with
  | arr items => cases items <;> simp [words]
  | obj members => cases members <;> simp [words]
  | null | bool | nat | number | str => simp [words]

theorem exists_eq_succ_of_words (j : Json) (fuel : Nat) (h : 2 * j.words.length ≤ fuel + 1) :
    ∃ k, fuel = k + 1 :=
  Nat.exists_eq_add_one.mpr (by have := length_words_pos j; omega)

/-- Its words are read as the value, and fuel for two calls per word is enough. -/
def Reads (j : Json) : Prop :=
  ∀ (fuel : Nat) (rest : List Token), 2 * j.words.length ≤ fuel + 1 →
    value? fuel (j.words ++ rest) = some (j, rest)

theorem items?_words {item : Json} {items : List Json} (hitem : item.Reads)
    (hitems : ∀ item ∈ items, item.Reads) (fuel : Nat) (rest : List Token)
    (hfuel : 2 * (item.words.length + (itemsWords items).length) ≤ fuel + 1) :
    items? fuel (item.words ++ (itemsWords items ++ rest)) = some (item :: items, rest) := by
  induction items generalizing item fuel with
  | nil =>
      obtain ⟨fuel, rfl⟩ := exists_eq_succ_of_words item fuel (by omega)
      have hvalue := hitem fuel (itemsWords [] ++ rest)
        (by simp [itemsWords] at hfuel; omega)
      rw [items?, hvalue]
      rfl
  | cons next items ih =>
      obtain ⟨hnext, hitems⟩ := List.forall_mem_cons.mp hitems
      obtain ⟨fuel, rfl⟩ := exists_eq_succ_of_words item fuel (by omega)
      have hvalue := hitem fuel (itemsWords (next :: items) ++ rest)
        (by simp [itemsWords] at hfuel ⊢; omega)
      have hrest := ih hnext hitems fuel (by simp [itemsWords] at hfuel; omega)
      rw [items?, hvalue]
      simp [itemsWords, hrest]

theorem members?_words {m : Option String × Json} {members : List (Option String × Json)}
    (hm : m.2.Reads) (hmembers : ∀ m ∈ members, m.2.Reads) (fuel : Nat) (rest : List Token)
    (hfuel : 2 * (m.2.words.length + (membersWords members).length) ≤ fuel + 1) :
    members? fuel (.str m.1 :: .colon :: (m.2.words ++ (membersWords members ++ rest))) =
      some (m :: members, rest) := by
  induction members generalizing m fuel with
  | nil =>
      obtain ⟨fuel, rfl⟩ := exists_eq_succ_of_words m.2 fuel (by omega)
      have hvalue := hm fuel (membersWords [] ++ rest)
        (by simp [membersWords] at hfuel; omega)
      simp only [members?, hvalue]
      rfl
  | cons next members ih =>
      obtain ⟨hnext, hmembers⟩ := List.forall_mem_cons.mp hmembers
      obtain ⟨fuel, rfl⟩ := exists_eq_succ_of_words m.2 fuel (by omega)
      have hvalue := hm fuel (membersWords (next :: members) ++ rest)
        (by simp [membersWords] at hfuel ⊢; omega)
      have hrest := ih hnext hmembers fuel (by simp [membersWords] at hfuel; omega)
      simp only [members?, hvalue]
      simp [membersWords, hrest]

theorem Plain.reads {j : Json} (h : j.Plain) : j.Reads := by
  induction h with
  | @arr items h ih =>
      intro fuel rest hfuel
      obtain ⟨fuel, rfl⟩ := exists_eq_succ_of_words _ fuel hfuel
      cases items with
      | nil => rfl
      | cons item items =>
          obtain ⟨hitem, hitems⟩ := List.forall_mem_cons.mp ih
          have hread := items?_words hitem hitems fuel rest
            (by simp [words] at hfuel; omega)
          simp only [words, List.cons_append, List.append_assoc]
          rw [value?, hread]
          · rfl
          · exact fun after => words_append_ne_closeArr item _ after
  | @obj members hnames h ih =>
      intro fuel rest hfuel
      obtain ⟨fuel, rfl⟩ := exists_eq_succ_of_words _ fuel hfuel
      cases members with
      | nil => rfl
      | cons m members =>
          obtain ⟨hm, hmembers⟩ := List.forall_mem_cons.mp ih
          have hread := members?_words hm hmembers fuel rest
            (by simp [words] at hfuel; omega)
          simp only [words, List.cons_append, List.append_assoc]
          rw [value?, hread]
          · rfl
          · exact fun after h => nomatch h
  | null | bool | nat | str =>
      intro fuel rest hfuel
      obtain ⟨fuel, rfl⟩ := exists_eq_succ_of_words _ fuel hfuel
      rfl

/-- Reading undoes writing. -/
theorem Plain.read?_text {j : Json} (h : j.Plain) : read? j.text = some j := by
  have hsplits : SplitsInto (j.chars 0 ++ []) (j.words ++ []) :=
    h.splits 0 (by simp [EndsNumber]) splitsInto_nil
  have hvalue := h.reads (2 * j.words.length) [] (by omega)
  simp only [List.append_nil] at hsplits hvalue
  simp [read?, text, hsplits _ (Nat.le_refl _), ofTokens?, hvalue]

end GridAccess.Json
