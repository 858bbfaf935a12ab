import CodeAtlas.Proofs.Yaml.Blocks
import CodeAtlas.Yaml.Reader
/-!
# What the style of a text tells

The style that is chosen for a text tells what the text looks like: a text that is written plain consists of
words and begins with no sign, one between single quotes has no line feed and no characters that cannot be
shown. Whatever the style is, only characters that can be shown are written.

Results:
1. `suits_styleOf`: the style of a text suits it.
2. `IsPlain.words`, `IsPlain.begins`: a text that is written plain consists of words and begins with no sign.
3. `isPlain_of_solid`: a text without spaces, line ends and signs may be written plain.
4. `isWritten_renderText`: what is written for a text can be shown.
-/

namespace CodeAtlas.Yaml

open Cursor

variable {x : Char} {s : String} {cs more rest skipped after : List Char} {c : Cursor} {floor : Nat}

/-! ## Written characters -/

/-- A text of characters that are written as they are. -/
def IsWritten (cs : List Char) : Prop := ∀ x ∈ cs, isPrintable x = true

theorem IsWritten.nil : IsWritten [] := fun _ h => by cases h

theorem IsWritten.cons (hx : isPrintable x = true) (h : IsWritten cs) : IsWritten (x :: cs) :=
  List.forall_mem_cons.mpr ⟨hx, h⟩

theorem IsWritten.append (h : IsWritten cs) (hmore : IsWritten more) : IsWritten (cs ++ more) :=
  List.forall_mem_append.mpr ⟨h, hmore⟩

theorem IsWritten.no_tab (h : IsWritten cs) : '\t' ∉ cs := fun hmem => by
  cases h '\t' hmem

theorem isWritten_of_any (h : (cs.any fun c => !isPrintable c) = false) : IsWritten cs := by
  intro x hx
  simpa using List.any_eq_false.mp h x hx

theorem isWritten_margin (n : Nat) : IsWritten (margin n) := fun x hx => by
  rw [eq_space_of_mem_margin hx]
  rfl

theorem isWritten_flatMap {f : Char → List Char} (hf : ∀ x ∈ cs, IsWritten (f x)) :
    IsWritten (cs.flatMap f) := fun y hy => by
  obtain ⟨x, hx, hy⟩ := List.mem_flatMap.mp hy
  exact hf x hx y hy

/-! ## Styles -/

/-- The styles that suit a text: those that read back as the text. -/
inductive Suits (s : String) : Style → Prop
  | plain (hmeaning : meaning s = .text) (hlook : (lookOf s.toList).allowsPlain = true) :
    Suits s .plain
  | single (hline : '\n' ∉ s.toList) (hlook : (lookOf s.toList).allowsSingle = true) :
    Suits s .single
  | double : Suits s .double
  | literal (hline : '\n' ∈ s.toList) (hlook : (lookOf s.toList).allowsLiteral = true) :
    Suits s .literal

theorem wantedStyle_cases (s : String) : (wantedStyle s = .literal ∧ '\n' ∈ s.toList) ∨
    ('\n' ∉ s.toList ∧ ((wantedStyle s = .plain ∧ meaning s = .text) ∨ wantedStyle s = .single)) := by
  rw [wantedStyle]
  split
  · next h => exact .inl ⟨rfl, List.contains_iff_mem.mp h⟩
  · next h =>
    refine .inr ⟨fun hmem => h (List.contains_iff_mem.mpr hmem), ?_⟩
    split
    · next hmeaning =>
      split
      · exact .inr rfl
      · exact .inl ⟨rfl, hmeaning⟩
    · exact .inr rfl

theorem suits_styleOf (s : String) : Suits s (styleOf s) := by
  have hquoted : '\n' ∉ s.toList →
      Suits s (if (lookOf s.toList).allowsSingle then .single else .double) := by
    intro hline
    split
    · next hlook => exact .single hline hlook
    · exact .double
  rcases wantedStyle_cases s with ⟨hwanted, hline⟩ | ⟨hline, ⟨hwanted, hmeaning⟩ | hwanted⟩
  · simp only [styleOf, hwanted]
    split
    · next hlook => exact .literal hline hlook
    · exact .double
  · simp only [styleOf, hwanted]
    split
    · next hlook => exact .plain hmeaning hlook
    · exact hquoted hline
  · simp only [styleOf, hwanted]
    exact hquoted hline

/-- Texts that may be written plain. -/
structure IsPlain (cs : List Char) : Prop where
  ne_nil : cs ≠ []
  allowed : (lookOf cs).allowsPlain = true

instance (cs : List Char) : Decidable (IsPlain cs) :=
  decidable_of_iff (cs ≠ [] ∧ (lookOf cs).allowsPlain = true)
    ⟨fun h => ⟨h.1, h.2⟩, fun h => ⟨h.ne_nil, h.allowed⟩⟩

theorem isPlain_of_styleOf (h : styleOf s = .plain) : IsPlain s.toList := by
  cases h ▸ suits_styleOf s with
  | plain hmeaning hlook =>
    refine ⟨fun hnil => ?_, hlook⟩
    rw [String.toList_eq_nil_iff.mp hnil] at hmeaning
    cases hmeaning

theorem isBreak_of_any (h : cs.any isBreak = false) : ∀ x ∈ cs, isBreak x = false := by
  intro x hx
  simpa using List.any_eq_false.mp h x hx

theorem hasPair_of_none {first second : Char → Bool} (h : ∀ x ∈ cs, first x = false) :
    hasPair first second cs = false := by
  induction cs with
  | nil => rfl
  | cons a cs ih =>
    cases cs with
    | nil => rfl
    | cons b cs =>
      rw [hasPair, h a List.mem_cons_self, ih fun x hx => h x (List.mem_cons_of_mem a hx)]
      rfl

/-- A text without spaces, line ends and signs may be written plain. -/
theorem isPlain_of_solid (hne : cs ≠ [])
    (hcs : ∀ x ∈ cs, isPrintable x = true ∧ isBreak x = false ∧ isSpace x = false)
    (hsign : hasSign cs = false) : IsPlain cs := by
  have hhead : ∀ p : Char → Bool, (∀ x ∈ cs, p x = false) → cs.head?.any p = false := fun p hp =>
    (Option.any_eq_false p _).mpr fun x hx => hp x (List.mem_of_head? hx)
  have hlast : ∀ p : Char → Bool, (∀ x ∈ cs, p x = false) → cs.getLast?.any p = false := fun p hp =>
    (Option.any_eq_false p _).mpr fun x hx => hp x (List.mem_of_getLast? hx)
  have hbreak : ∀ x ∈ cs, isBreak x = false := fun x hx => (hcs x hx).2.1
  have hspace : ∀ x ∈ cs, isSpace x = false := fun x hx => (hcs x hx).2.2
  have hspecial : (cs.any fun c => !isPrintable c) = false :=
    List.any_eq_false.mpr fun x hx => by simp [(hcs x hx).1]
  have hbreaks : cs.any isBreak = false := List.any_eq_false.mpr fun x hx => by simp [hbreak x hx]
  refine ⟨hne, ?_⟩
  simp only [Look.allowsPlain, lookOf, hhead _ hspace, hhead _ hbreak, hlast _ hspace, hlast _ hbreak,
    hasPair_of_none hbreak, hasPair_of_none hspace, hspecial, hbreaks, hsign]
  rfl

namespace IsPlain

variable (h : IsPlain cs)

include h

theorem look : (lookOf cs).leadingSpace = false ∧ (lookOf cs).trailingSpace = false ∧
    (lookOf cs).special = false ∧ (lookOf cs).breaks = false ∧ (lookOf cs).indicators = false := by
  have hallowed := h.allowed
  simp only [Look.allowsPlain, Bool.not_eq_true', Bool.or_eq_false_iff] at hallowed
  simp only [hallowed, and_self]

theorem written : IsWritten cs := isWritten_of_any h.look.2.2.1

theorem no_break : ∀ x ∈ cs, isBreak x = false := isBreak_of_any h.look.2.2.2.1

/-- The first character is no sign, and neither is what follows. -/
theorem exists_first : ∃ x more, cs = x :: more ∧ isSignAtStart x more = false ∧
    hasSignInside x more = false ∧
    (∀ rest, cs ≠ '-' :: '-' :: '-' :: rest) ∧ ∀ rest, cs ≠ '.' :: '.' :: '.' :: rest := by
  have hsigns : hasSign cs = false := h.look.2.2.2.2
  have hne := h.ne_nil
  unfold hasSign at hsigns
  split at hsigns
  · exact absurd rfl hne
  · cases hsigns
  · cases hsigns
  · next x more hminus hpoint =>
    rw [Bool.or_eq_false_iff] at hsigns
    exact ⟨x, more, rfl, hsigns.1, hsigns.2, fun _ heq => (by cases heq; exact hminus _ rfl rfl),
      fun _ heq => (by cases heq; exact hpoint _ rfl rfl)⟩

theorem words : IsWords cs := by
  obtain ⟨hspace, hlast, _⟩ := h.look
  obtain ⟨x, more, rfl, hstart, hinside, _⟩ := h.exists_first
  have hcomment : x ≠ '#' := by
    rintro rfl
    cases hstart
  have hcolon : (x == ':' && endsWord more) = false := by
    by_cases hx : x = ':'
    · subst hx
      exact (Bool.or_eq_false_iff.mp hstart).2
    · rw [beq_eq_false_iff_ne.mpr hx, Bool.false_and]
  refine ⟨h.ne_nil, fun y hy => ⟨h.no_break y hy, fun htab => ?_⟩, fun hfirst => ?_, fun hend => ?_, ?_⟩
  · exact h.written.no_tab (htab ▸ hy)
  · cases hfirst
    cases hspace
  · have htrailing : (x :: more).getLast?.any isSpace = false := hlast
    rw [hend] at htrailing
    cases htrailing
  · rw [hasSignInside, hinside, isSignInside, hcolon, beq_eq_false_iff_ne.mpr hcomment]
    rfl

/-- The first character begins a plain scalar, whatever comes behind the text. -/
theorem begins (rest : List Char) : ∃ x more, cs ++ rest = x :: more ∧
    x ∉ "#,[]\x7b\x7d&*!|>'\"%@\x60".toList ∧ isBlank x = false ∧ isBreak x = false ∧
    ((x = '-' ∨ x = '?' ∨ x = ':') → endsWord more = false) := by
  obtain ⟨x, more, rfl, hstart, _⟩ := h.exists_first
  obtain ⟨hsigns, hends⟩ := Bool.or_eq_false_iff.mp hstart
  obtain ⟨hbreak, htab⟩ := h.words.plain x List.mem_cons_self
  refine ⟨x, more ++ rest, rfl, fun hmem => ?_,
    isBlank_eq_false (fun hx => h.words.begins (congrArg some hx)) htab, hbreak, fun hx => ?_⟩
  · rw [List.contains_iff_mem.mpr hmem] at hsigns
    cases hsigns
  · have hsign : (x == '?' || x == ':' || x == '-') = true := by
      rcases hx with rfl | rfl | rfl <;> rfl
    rw [hsign, Bool.true_and] at hends
    rwa [endsWord_append]
    rintro rfl
    cases hends

theorem beginsPlain_eq (hchars : c.chars = cs ++ rest) : beginsPlain false c = true := by
  obtain ⟨x, more, hcons, hsigns, hblank, hbreak, hends⟩ := h.begins rest
  have hlist : ",[]\x7b\x7d#&*!|>'\"%@\x60".toList.contains x = false := by
    have hsame : ",[]\x7b\x7d#&*!|>'\"%@\x60".toList.all
        ("#,[]\x7b\x7d&*!|>'\"%@\x60".toList.contains ·) = true := by decide +kernel
    refine Bool.eq_false_iff.mpr fun hmem => hsigns ?_
    exact List.contains_iff_mem.mp (List.all_eq_true.mp hsame x (List.contains_iff_mem.mp hmem))
  rw [beginsPlain, hchars, hcons]
  simp only [hblank, hbreak, hlist, Bool.or_self, Bool.false_eq_true, if_false, Bool.not_false,
    Bool.true_and]
  split
  · next hx => rw [hends (.inl (beq_iff_eq.mp hx)), Bool.not_false]
  · split
    · next hx =>
      rw [hends (.inr (by simpa using hx)), Bool.not_false]
    · rfl

theorem no_mark (hend : EndsPlain floor rest skipped after) (hchars : c.chars = cs ++ rest) :
    c.isMark '-' = false ∧ c.isMark '.' = false := by
  obtain ⟨x, more, rfl, _, _, hminus, hpoint⟩ := h.exists_first
  have hmark : ∀ y, y ≠ ':' → y ≠ '\n' → (∀ rest, x :: more ≠ y :: y :: y :: rest) →
      c.isMark y = false := by
    intro y hcolon hline hthree
    rw [Cursor.isMark, hchars]
    refine Bool.and_eq_false_iff.mpr (.inr ?_)
    split
    · next a b d rest' heq =>
      refine Bool.eq_false_iff.mpr fun hall => ?_
      simp only [Bool.and_eq_true, beq_iff_eq] at hall
      obtain ⟨⟨⟨ha, hb⟩, hd⟩, _⟩ := hall
      rw [ha, hb, hd] at heq
      obtain ⟨z, tail, rfl, hz⟩ := hend.exists_head
      have hne : z ≠ y := by
        rcases hz with rfl | rfl
        · exact hcolon.symm
        · exact hline.symm
      rcases more with _ | ⟨w, _ | ⟨v, more⟩⟩
      · exact hne (List.cons.inj (List.cons.inj heq).2).1
      · exact hne (List.cons.inj (List.cons.inj (List.cons.inj heq).2).2).1
      · cases heq
        exact hthree _ rfl
    · rfl
  exact ⟨hmark '-' (by decide) (by decide) hminus, hmark '.' (by decide) (by decide) hpoint⟩

end IsPlain

/-! ## What is written -/

theorem IsWritten.endLine (h : IsWritten cs) : IsWritten (endLine cs) := by
  rw [Yaml.endLine]
  split
  · exact h
  · exact h.append (.cons rfl .nil)

theorem isWritten_lead (position : Position) (indent : Nat) : IsWritten (position.lead indent) := by
  cases position with
  | behindKey => exact .cons rfl (isWritten_margin _)
  | behindSign => exact .cons rfl .nil

theorem IsWritten.indented (h : IsWritten cs) (indent : Nat) (fresh : Bool) :
    IsWritten (indented indent fresh cs) := by
  induction cs generalizing fresh with
  | nil => exact .nil
  | cons x cs ih =>
    obtain ⟨hx, hcs⟩ := List.forall_mem_cons.mp h
    rw [Yaml.indented]
    split
    · exact .cons hx (ih hcs _)
    · split
      · exact (isWritten_margin _).append (.cons hx (ih hcs _))
      · exact .cons hx (ih hcs _)

theorem isWritten_escape (c : Char) : IsWritten (escape c) := by
  rcases escape_cases c with ⟨heq, hc, _⟩ | ⟨name, heq, hname⟩
  · rw [heq]
    exact .cons hc .nil
  · rw [heq]
    exact .cons rfl fun x hx => (hname.shown x hx).2

theorem isWritten_renderDouble (cs : List Char) : IsWritten (renderDouble cs) := by
  rw [renderDouble_eq]
  exact .cons rfl ((isWritten_flatMap fun _ _ => isWritten_escape _).append (.cons rfl .nil))

theorem IsWritten.renderSingle (h : IsWritten cs) (indent : Nat) :
    IsWritten (renderSingle indent cs) := by
  have hdouble : IsWritten (cs.flatMap double) := isWritten_flatMap fun x hx => by
    rw [double]
    split
    · exact .cons rfl (.cons rfl .nil)
    · exact .cons (h x hx) .nil
  have hlast : IsWritten (if cs.getLast?.any isBreak then margin indent else []) := by
    split
    · exact isWritten_margin _
    · exact .nil
  rw [renderSingle_eq, singleBody]
  exact .cons rfl (((hdouble.indented _ _).append hlast).append (.cons rfl .nil))

theorem isWritten_chomping (cs : List Char) : IsWritten (chomping cs) := by
  rw [chomping]
  split
  · exact .cons rfl .nil
  · split
    · exact .cons rfl .nil
    · split
      · exact .cons rfl .nil
      · split
        · exact .cons rfl .nil
        · exact .nil

theorem IsWritten.renderLiteral (h : IsWritten cs) (indent : Nat) :
    IsWritten (renderLiteral indent cs) := by
  have hhint : IsWritten (if cs.head?.any fun c => isSpace c || isBreak c then ['2'] else []) := by
    split
    · exact .cons rfl .nil
    · exact .nil
  rw [Yaml.renderLiteral]
  exact ((IsWritten.cons rfl hhint).append (isWritten_chomping cs)).append (.cons rfl (h.indented _ _))

theorem isWritten_renderText (indent : Nat) (s : String) : IsWritten (renderText indent s) := by
  have hsuits := suits_styleOf s
  rw [renderText]
  cases hstyle : styleOf s with
  | plain => exact (isPlain_of_styleOf hstyle).written
  | single =>
    rw [hstyle] at hsuits
    cases hsuits with
    | single _ hlook =>
      simp only [Look.allowsSingle, Bool.not_eq_true', Bool.or_eq_false_iff] at hlook
      exact IsWritten.renderSingle (isWritten_of_any hlook.2) indent
  | double => exact isWritten_renderDouble _
  | literal =>
    rw [hstyle] at hsuits
    cases hsuits with
    | literal _ hlook =>
      simp only [Look.allowsLiteral, Bool.not_eq_true', Bool.or_eq_false_iff] at hlook
      exact IsWritten.renderLiteral (isWritten_of_any hlook.2) indent

end CodeAtlas.Yaml
