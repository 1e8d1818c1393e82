import Mathlib.Data.List.Forall2
import Mathlib.Data.List.Infix
import Stacking.Proofs.Style.Splice

/-!
# How a declaration is read

A declaration is read from the text of its prelude, in which one space stands for every gap with a
comment (`Prelude.text_eq_joined`). What stands before the first colon is the property, what follows
is the value, and a mark of importance at the end of the value is cut off
(`Declaration.readFrom_of_ofText?`). Without a colon, or with blanks only before it, there is no
declaration (`Declaration.isSome_ofText?_iff`).
-/

namespace Stacking

open Token

/-! ## The gaps in a prelude -/

/-- A comment opens somewhere in the text. -/
def Text.HasComment (t : Text) : Prop := ['/', '*'] <:+: t ∨ ['/', '/'] <:+: t

instance (t : Text) : Decidable t.HasComment := inferInstanceAs (Decidable (_ ∨ _))

theorem Text.HasComment.slash_mem {t : Text} (h : t.HasComment) : '/' ∈ t := by
  rcases h with h | h <;> exact h.subset List.mem_cons_self

/-- One space in place of a gap with a comment, and any other gap as it is. -/
def Prelude.condense (gap : Text) : Text := if gap.HasComment then [' '] else gap

/-- Of the text between two tokens all is blank but for comments. -/
theorem Ignorable.isAllBlank_iff {b lead : Text} (hb : ∀ c ∈ b, isBlank c = true)
    (hlead : Ignorable lead) :
    Text.isAllBlank (b ++ lead) = true ↔ ¬Text.HasComment (b ++ lead) := by
  rw [Text.isAllBlank, List.all_eq_true]
  constructor
  · intro hall hcomment
    exact absurd (hall '/' hcomment.slash_mem) (by decide)
  · intro hnone
    obtain ⟨spaces, r, rfl, hspaces, hr⟩ := hlead.exists_spaces
    rcases hr with rfl | ⟨c, r, rfl, hc⟩
    · intro c hc
      rw [List.append_nil] at hc
      rcases List.mem_append.mp hc with hc | hc
      · exact hb c hc
      · exact Lexeme.isBlank_of_isSpace (hspaces c hc)
    · refine absurd ?_ hnone
      have hshape : b ++ (spaces ++ '/' :: c :: r) = (b ++ spaces) ++ ['/', c] ++ r := by simp
      rcases hc with rfl | rfl
      · exact Or.inl ⟨_, _, hshape.symm⟩
      · exact Or.inr ⟨_, _, hshape.symm⟩

theorem Prelude.spacing_eq_condense {b lead : Text} (hb : ∀ c ∈ b, isBlank c = true)
    (hlead : Ignorable lead) : spacing (b ++ lead) = condense (b ++ lead) := by
  simp only [spacing, condense, hlead.isAllBlank_iff hb]
  split <;> simp_all

theorem Prelude.textAfter_eq_joinedAfter {ts : List Token} {rest trailing : Text}
    (h : Lexes ts rest) (hb : ∀ c ∈ trailing, isBlank c = true) :
    textAfter trailing ts = joinedAfter condense trailing ts := by
  induction ts generalizing trailing with
  | nil => rfl
  | cons t ts ih =>
    rw [textAfter, joinedAfter, spacing_eq_condense hb h.1, ih h.2.2 t.content_append.2,
      List.append_assoc]

/-- The text of a prelude is what is written, with one space for every gap with a comment. -/
theorem Prelude.text_eq_joined {ts : List Token} {rest : Text} (h : Lexes ts rest) :
    text ts = joined condense ts := by
  cases ts with
  | nil => rfl
  | cons t ts => rw [text, joined, textAfter_eq_joinedAfter h.2.2 t.content_append.2]

/-! ## Cutting and trimming -/

namespace Text

theorem cut?_eq_some_iff {c : Char} {t u v : Text} :
    t.cut? c = some (u, v) ↔ t = u ++ c :: v ∧ c ∉ u := by
  induction t generalizing u with
  | nil => simp [cut?]
  | cons d t ih =>
    rw [cut?]
    by_cases hd : d = c
    · rw [if_pos hd]
      constructor
      · rintro h
        obtain ⟨rfl, rfl⟩ := Prod.mk.inj (Option.some.inj h)
        exact ⟨by rw [hd]; rfl, by simp⟩
      · rintro ⟨h, hu⟩
        cases u with
        | nil => simp only [List.nil_append, List.cons.injEq] at h; rw [h.2]
        | cons e u =>
          obtain rfl : d = e := (List.cons.inj h).1
          exact absurd hd fun hd => hu (by simp [hd])
    · rw [if_neg hd]
      constructor
      · intro h
        obtain ⟨⟨x, y⟩, hxy, heq⟩ := Option.map_eq_some_iff.mp h
        obtain ⟨rfl, rfl⟩ := Prod.mk.inj heq
        obtain ⟨rfl, hx⟩ := ih.mp hxy
        exact ⟨rfl, by simpa [Ne.symm hd] using hx⟩
      · rintro ⟨h, hu⟩
        cases u with
        | nil => exact absurd (List.cons.inj h).1 hd
        | cons e u =>
          obtain ⟨rfl, rfl⟩ := List.cons.inj h
          have hu' : c ∉ u := fun hc => hu (List.mem_cons_of_mem d hc)
          rw [ih.mpr ⟨rfl, hu'⟩]
          rfl

theorem cut?_eq_none_iff {c : Char} {t : Text} : t.cut? c = none ↔ c ∉ t := by
  constructor
  · intro h hc
    obtain ⟨u, v, ht, hu⟩ := List.eq_append_cons_of_mem hc
    rw [cut?_eq_some_iff.mpr ⟨ht, hu⟩] at h
    exact nomatch h
  · intro h
    cases hcut : t.cut? c with
    | none => rfl
    | some parts =>
      obtain ⟨ht, _⟩ := cut?_eq_some_iff.mp hcut
      exact absurd (by rw [ht]; simp) h

theorem trimStart_append (t : Text) :
    ∃ b, t = b ++ t.trimStart ∧ ∀ c ∈ b, isBlank c = true :=
  ⟨t.takeWhile isBlank, List.takeWhile_append_dropWhile.symm, fun c hc =>
    List.all_eq_true.mp List.all_takeWhile c hc⟩

/-- What is left by trimming starts with a character that is not blank. -/
theorem head?_trimStart (t : Text) : ∀ c ∈ t.trimStart.head?, isBlank c = false := by
  intro c hc
  have hnot := List.head?_dropWhile_not isBlank t
  rw [trimStart] at hc
  rw [Option.mem_def.mp hc] at hnot
  simpa using hnot

theorem trimStart_of_blanks {b t : Text} (hb : ∀ c ∈ b, isBlank c = true)
    (ht : ∀ c ∈ t.head?, isBlank c = false) : trimStart (b ++ t) = t := by
  rw [trimStart, List.dropWhile_append_of_pos hb]
  cases t with
  | nil => rfl
  | cons c t => rw [List.dropWhile_cons_of_neg (by simp [ht c rfl])]

theorem mem_of_mem_trim {t : Text} {c : Char} (h : c ∈ t.trim) : c ∈ t := by
  obtain ⟨b, hb, _⟩ := t.trimStart_append
  obtain ⟨b', hb', _⟩ := dropEndWhile_append isBlank t.trimStart
  rw [hb, hb']
  exact List.mem_append_right _ (List.mem_append_left _ h)

theorem trim_eq_nil_iff {t : Text} : t.trim = [] ↔ t.isAllBlank = true := by
  rw [isAllBlank, List.all_eq_true]
  constructor
  · intro h
    obtain ⟨b, hb, hblank⟩ := t.trimStart_append
    obtain ⟨b', hb', hblank'⟩ := dropEndWhile_append isBlank t.trimStart
    have hempty : t.trimStart.dropEndWhile isBlank = [] := h
    rw [hempty, List.nil_append] at hb'
    rw [hb, hb']
    exact List.forall_mem_append.mpr ⟨hblank, hblank'⟩
  · intro h
    refine List.eq_nil_iff_forall_not_mem.mpr fun c hc => ?_
    -- a character that is left would be the first one, which is not blank
    have hstart : t.trimStart = [] := by simpa [trimStart, List.dropWhile_eq_nil_iff] using h
    rw [trim, hstart] at hc
    exact nomatch hc

end Text

/-! ## Marks of importance -/

namespace Declaration

/-- A mark of importance: an exclamation mark and the word `important`, each with blanks in front of
it or none. -/
def IsImportanceMark (mark : Text) : Prop :=
  ∃ b b' word, mark = b ++ '!' :: (b' ++ word) ∧ (∀ c ∈ b, isBlank c = true) ∧
    (∀ c ∈ b', isBlank c = true) ∧
    List.Forall₂ (fun c letter => isSpelling c letter = true) word "important".toList

theorem dropWord?_eq_some_iff {word t rest : Text} :
    dropWord? word t = some rest ↔
      ∃ w, t = w ++ rest ∧ List.Forall₂ (fun c letter => isSpelling c letter = true) w word := by
  induction word generalizing t with
  | nil => simp [dropWord?]
  | cons letter word ih =>
    cases t with
    | nil => simp [dropWord?]
    | cons c t =>
      rw [dropWord?]
      constructor
      · intro h
        split at h
        · rename_i hc
          obtain ⟨w, rfl, hw⟩ := ih.mp h
          exact ⟨c :: w, rfl, .cons hc hw⟩
        · exact nomatch h
      · rintro ⟨w, ht, hw⟩
        cases hw with
        | cons hc hw =>
          obtain ⟨rfl, rfl⟩ := List.cons.inj ht
          rw [if_pos hc]
          exact ih.mpr ⟨_, rfl, hw⟩

/-- A value is cut before its mark of importance and the blanks in front of that. -/
theorem beforeImportant?_eq_some_iff {value v : Text} :
    beforeImportant? value = some v ↔
      (∃ mark, value = v ++ mark ∧ IsImportanceMark mark) ∧
        ∀ c ∈ v.getLast?, isBlank c = false := by
  constructor
  · intro h
    rw [beforeImportant?] at h
    split at h
    · exact nomatch h
    · rename_i marked hmarked
      obtain ⟨w, hw, hword⟩ := dropWord?_eq_some_iff.mp hmarked
      split at h
      · rename_i unmarked hunmarked
        obtain rfl := Option.some.inj h
        obtain ⟨b', hb', hblank'⟩ := Text.trimStart_append marked
        obtain ⟨b, hb, hblank⟩ := Text.trimStart_append unmarked
        refine ⟨⟨b.reverse ++ '!' :: (b'.reverse ++ w.reverse), ?_, b.reverse, b'.reverse,
          w.reverse, rfl, by simpa using hblank, by simpa using hblank', ?_⟩, ?_⟩
        · rw [← List.reverse_reverse value, hw, hb', hunmarked]
          conv => lhs; rw [hb]
          simp
        · rwa [← List.forall₂_reverse_iff, List.reverse_reverse]
        · intro c hc
          rw [List.getLast?_reverse] at hc
          exact Text.head?_trimStart unmarked c hc
      · exact nomatch h
  · rintro ⟨⟨_, rfl, b, b', w, rfl, hb, hb', hword⟩, hlast⟩
    have hdrop : dropWord? "important".toList.reverse
        (v ++ (b ++ '!' :: (b' ++ w))).reverse =
          some (b'.reverse ++ '!' :: (b.reverse ++ v.reverse)) :=
      dropWord?_eq_some_iff.mpr ⟨w.reverse, by simp, List.forall₂_reverse_iff.mpr hword⟩
    have hmark : Text.trimStart (b'.reverse ++ '!' :: (b.reverse ++ v.reverse)) =
        '!' :: (b.reverse ++ v.reverse) :=
      Text.trimStart_of_blanks (by simpa using hb') fun c hc => by
        obtain rfl := Option.some.inj hc
        decide
    have hvalue : Text.trimStart (b.reverse ++ v.reverse) = v.reverse :=
      Text.trimStart_of_blanks (by simpa using hb) fun c hc =>
        hlast c (by rwa [List.head?_reverse] at hc)
    simp only [beforeImportant?, hdrop, hmark, hvalue, List.reverse_reverse]

/-- A value without a mark of importance at its end is not cut. -/
theorem beforeImportant?_eq_none_iff {value : Text} :
    beforeImportant? value = none ↔ ¬∃ v mark, value = v ++ mark ∧ IsImportanceMark mark := by
  constructor
  · rintro h ⟨v, _, rfl, b, b', w, rfl, hb, hb', hword⟩
    -- the blanks at the end of what is left belong to the mark
    obtain ⟨b'', hv, hb''⟩ := Text.dropEndWhile_append isBlank v
    have hsome : beforeImportant? (v ++ (b ++ '!' :: (b' ++ w))) = some v.trimEnd := by
      refine beforeImportant?_eq_some_iff.mpr ⟨⟨b'' ++ b ++ '!' :: (b' ++ w), ?_, b'' ++ b, b', w,
        rfl, List.forall_mem_append.mpr ⟨hb'', hb⟩, hb', hword⟩, ?_⟩
      · conv => lhs; rw [hv]
        simp [Text.trimEnd]
      · intro c hc
        rw [Text.trimEnd, Text.dropEndWhile, List.getLast?_reverse] at hc
        exact Text.head?_trimStart v.reverse c hc
    rw [hsome] at h
    cases h
  · intro h
    cases hsome : beforeImportant? value with
    | none => rfl
    | some v =>
      obtain ⟨⟨mark, hvalue, hmark⟩, _⟩ := beforeImportant?_eq_some_iff.mp hsome
      exact absurd ⟨v, mark, hvalue, hmark⟩ h

/-! ## Property and value -/

/-- The declaration that a text spells: the property is the trimmed text before the first colon, and
the value the trimmed text behind it without a mark of importance. -/
def ReadFrom (t : Text) (d : Declaration) : Prop :=
  ∃ before after : Text, t = before ++ ':' :: after ∧ ':' ∉ before ∧
    d.property.toList = before.trim ∧ d.property.toList ≠ [] ∧ ':' ∉ d.property.toList ∧
    if d.important then
      ∃ mark, after.trim = d.value.toList ++ mark ∧ IsImportanceMark mark ∧
        ∀ c ∈ d.value.toList.getLast?, isBlank c = false
    else after.trim = d.value.toList ∧ ¬∃ v mark, after.trim = v ++ mark ∧ IsImportanceMark mark

theorem readFrom_of_ofText? {t : Text} {span : Option Span} {d : Declaration}
    (h : ofText? t span = some d) : d.ReadFrom t := by
  rw [ofText?] at h
  split at h
  · exact nomatch h
  · rename_i before after hcut
    obtain ⟨rfl, hbefore⟩ := Text.cut?_eq_some_iff.mp hcut
    split at h
    · exact nomatch h
    · rename_i hblank
      have hne : before.trim ≠ [] := fun hnil => hblank (Text.trim_eq_nil_iff.mp hnil)
      have hcolon : ':' ∉ before.trim := fun hc => hbefore (Text.mem_of_mem_trim hc)
      simp only at h
      split at h
      · rename_i hnone
        obtain rfl := Option.some.inj h
        refine ⟨before, after, rfl, hbefore, by simp, by simpa using hne, by simpa using hcolon, ?_⟩
        simpa using beforeImportant?_eq_none_iff.mp hnone
      · rename_i value hsome
        obtain rfl := Option.some.inj h
        refine ⟨before, after, rfl, hbefore, by simp, by simpa using hne, by simpa using hcolon, ?_⟩
        obtain ⟨⟨mark, hvalue, hmark⟩, hlast⟩ := beforeImportant?_eq_some_iff.mp hsome
        simpa using ⟨mark, hvalue, hmark, hlast⟩

/-- A text spells a declaration exactly if it has a colon with more than blanks before it. -/
theorem isSome_ofText?_iff {t : Text} {span : Option Span} :
    (ofText? t span).isSome = true ↔
      ∃ before after, t = before ++ ':' :: after ∧ ':' ∉ before ∧
        ∃ c ∈ before, isBlank c = false := by
  rw [ofText?]
  cases hcut : t.cut? ':' with
  | none =>
    simp only [Option.isSome_none, Bool.false_eq_true, false_iff]
    rintro ⟨before, after, rfl, _⟩
    exact Text.cut?_eq_none_iff.mp hcut (by simp)
  | some parts =>
    obtain ⟨before, after⟩ := parts
    have hblank : before.isAllBlank = true ↔ ¬∃ c ∈ before, isBlank c = false := by
      simp [Text.isAllBlank]
    constructor
    · intro h
      obtain ⟨ht, hbefore⟩ := Text.cut?_eq_some_iff.mp hcut
      refine ⟨before, after, ht, hbefore, ?_⟩
      by_contra hnot
      simp [hblank.mpr hnot] at h
    · rintro ⟨before', after', ht, hbefore', hc⟩
      have hsame := hcut.symm.trans (Text.cut?_eq_some_iff.mpr ⟨ht, hbefore'⟩)
      obtain ⟨rfl, rfl⟩ := Prod.mk.inj (Option.some.inj hsame)
      have hnot : ¬before.isAllBlank = true := fun hall => hblank.mp hall hc
      simp only [if_neg hnot]
      split <;> rfl

end Declaration
end Stacking
