import CodeAtlas.SourceFile
import Mathlib.Data.List.TakeWhile
/-!
# The bodies of classes are blocks

What the trees of a grammar look like can be read off its patterns. A demand on the trees that a
pattern makes is checked by going through the pattern, where each rule is known to meet some demands
itself; what is checked in this way holds of every reading. Here it is used to see that the body of a
class is a block, in every syntax tree of the languages that have classes with bodies.

Results:
1. `IsSettled.good_run`: the trees of a reading meet what their pattern has been checked for.
2. `IsSettled.blockBodied_parse`: so in a whole tree the bodies of classes are blocks.
3. `Python.blockBodied_parse`, `Script.blockBodied_parse`, `Java.blockBodied_parse`: it is so in these
   languages.
-/

namespace CodeAtlas

/-- A block, or a comment, which may stand anywhere. -/
def Kind.isBlock (k : Kind) : Bool := k == .block || k.isComment

namespace Tree

/-- A comment. -/
def IsNote (t : Tree) : Prop := t.kind.isComment = true ∧ t.children = []

/-- The bodies of all classes in the tree are blocks. -/
inductive BlockBodied (isClass : Kind → Bool) : Tree → Prop
  | node {kind : Kind} {role : Option Role} {start stop : Nat} {children : List Tree} :
    (isClass kind = true → ∀ c ∈ children, c.role = some .body → c.kind.isBlock = true) →
    (∀ c ∈ children, BlockBodied isClass c) →
    BlockBodied isClass (.node kind role start stop children)

theorem BlockBodied.of_mem {isClass : Kind → Bool} {kind : Kind} {role : Option Role}
    {start stop : Nat} {children : List Tree} {t : Tree}
    (h : (Tree.node kind role start stop children).BlockBodied isClass) (ht : t ∈ children) :
    t.BlockBodied isClass := by
  obtain ⟨-, hchildren⟩ := h
  exact hchildren t ht

end Tree

/-! ## Demands -/

/-- What may be asked of a tree. -/
inductive Demand where
  | anything
  /-- If it is a body, then a block. -/
  | blockIfBody
  | block
  /-- It is no class. -/
  | noClass

namespace Demand

def holds (isClass : Kind → Bool) : Demand → Kind → Option Role → Bool
  | anything, _, _ => true
  | blockIfBody, k, r => r != some .body || k.isBlock
  | block, k, _ => k.isBlock
  | noClass, k, _ => !isClass k

/-- Whether the trees that a rule makes meet the demand: all rules give blocks for bodies, and some
are known to make nothing but blocks. -/
def ofRule (isBlockRule : Bool) : Demand → Bool
  | anything | blockIfBody => true
  | block => isBlockRule
  | noClass => false

/-- What is to be asked of a tree before it is given a role. -/
def within (r : Role) : Demand → Demand
  | blockIfBody => if r == .body then block else anything
  | d => d

variable {isClass : Kind → Bool} {d : Demand} {k : Kind} {r : Option Role}

theorem holds_of_isComment (hcomment : ∀ k, k.isComment = true → isClass k = false)
    (hk : k.isComment = true) : d.holds isClass k r = true := by
  cases d <;> simp [holds, Kind.isBlock, hk, hcomment k hk]

theorem holds_none (h : d.holds isClass k r = true) : d.holds isClass k none = true := by
  cases d with
  | blockIfBody => rfl
  | anything | block | noClass => exact h

theorem holds_of_within {role : Role} (h : (d.within role).holds isClass k r = true) :
    d.holds isClass k (some role) = true := by
  cases d with
  | anything | block | noClass => exact h
  | blockIfBody =>
    rw [within] at h
    split at h
    · exact Bool.or_eq_true_iff.mpr (.inr h)
    · next hrole =>
      have hne : role ≠ .body := fun heq => hrole (beq_iff_eq.mpr heq)
      simp [holds, hne]

end Demand

namespace Pattern

variable {N : Type} (isClass : Kind → Bool) (blocks : N → Bool)

/-- Whether all trees that a pattern makes meet a demand. -/
def meets : Demand → Pattern N → Bool
  | d, token k _ | d, adjoined k _ | d, node k _ => d.holds isClass k none
  | d, call n => d.ofRule (blocks n)
  | d, seq a b | d, alt a b => meets d a && meets d b
  | d, inRole r a => meets (d.within r) a
  | d, many a | d, group a | d, growOn a | d, lines _ a => meets d a
  | _, empty | _, layout _ | _, peek _ | _, avoid _ => true

/-- Whether the pattern makes classes only with blocks for bodies, and moves nothing into a class that
has been read before. -/
def isSettled : Pattern N → Bool
  | node k a => (!isClass k || meets isClass blocks .blockIfBody a) && isSettled a
  | growOn a => meets isClass blocks .noClass a && isSettled a
  | seq a b | alt a b => isSettled a && isSettled b
  | many a | inRole _ a | group a | lines _ a => isSettled a
  | empty | token _ _ | adjoined _ _ | layout _ | call _ | peek _ | avoid _ => true

/-- A layout step that finds nothing but comments if there is nothing else in between. -/
def KeepsNotes (step : Source → Place → Option (List Tree × Place)) : Prop :=
  ∀ src place kept place', step src place = some (kept, place') →
    (∀ t ∈ place.comments, t.IsNote) → (∀ t ∈ kept, t.IsNote) ∧ ∀ t ∈ place'.comments, t.IsNote

/-- All layout steps of the pattern do so. -/
def Keeps : Pattern N → Prop
  | layout step => KeepsNotes step
  | seq a b | alt a b => Keeps a ∧ Keeps b
  | many a | node _ a | inRole _ a | group a | growOn a | lines _ a => Keeps a
  | empty | token _ _ | adjoined _ _ | call _ | peek _ | avoid _ => True

theorem keeps_ite {c : Prop} [Decidable c] {p q : Pattern N} (hp : p.Keeps) (hq : q.Keeps) :
    (if c then p else q).Keeps := by
  split
  · exact hp
  · exact hq

end Pattern

namespace Grammar

variable {N : Type}

/-- A grammar of which all this has been checked. -/
structure IsSettled (g : Grammar N) (isClass : Kind → Bool) (blocks : N → Bool) : Prop where
  comments : ∀ k, k.isComment = true → isClass k = false
  trivia : ∀ src stop indents, ∀ t ∈ (g.trivia src stop indents).comments, t.IsNote
  keeps : ∀ n, (g.rule n).Keeps
  settled : ∀ n, (g.rule n).isSettled isClass blocks = true
  bodies : ∀ n, (g.rule n).meets isClass blocks .blockIfBody = true
  blocks : ∀ n, blocks n = true → (g.rule n).meets isClass blocks .block = true

/-! ## Readings -/

/-- A tree that meets a demand, and so do the classes in it. -/
def Good (isClass : Kind → Bool) (d : Demand) (t : Tree) : Prop :=
  d.holds isClass t.kind t.role = true ∧ t.BlockBodied isClass

/-- What a reading gives, if it succeeds, is good. -/
def Reads (isClass : Kind → Bool) (d : Demand) (o : Outcome) : Prop :=
  ∀ place out, o.result = some (place, out) →
    (∀ t ∈ place.comments, t.IsNote) ∧ ∀ t ∈ out, Good isClass d t

variable {g : Grammar N} {isClass : Kind → Bool} {blocks : N → Bool} {d : Demand}

theorem reads_none (reach : Nat) : Reads isClass d ⟨reach, none⟩ := nofun

theorem reads_some {place : Place} {out : List Tree} (hplace : ∀ t ∈ place.comments, t.IsNote)
    (hout : ∀ t ∈ out, Good isClass d t) (reach : Nat) :
    Reads isClass d ⟨reach, some (place, out)⟩ := by
  rintro _ _ ⟨⟩
  exact ⟨hplace, hout⟩

theorem Reads.of_eq {o : Outcome} (h : Reads isClass d o) {reach : Nat} {place : Place}
    {out : List Tree} (heq : o = ⟨reach, some (place, out)⟩) :
    (∀ t ∈ place.comments, t.IsNote) ∧ ∀ t ∈ out, Good isClass d t :=
  h place out (congrArg Outcome.result heq)

theorem blockBodied_leaf (k : Kind) (start stop : Nat) :
    (Tree.leaf k start stop).BlockBodied isClass :=
  .node (fun _ => List.forall_mem_nil _) (List.forall_mem_nil _)

theorem good_of_isNote (hcomments : ∀ k, k.isComment = true → isClass k = false) {t : Tree}
    (ht : t.IsNote) : Good isClass d t := by
  obtain ⟨kind, role, start, stop, children⟩ := t
  obtain ⟨hkind, rfl⟩ := ht
  have hbodied : (Tree.node kind role start stop []).BlockBodied isClass :=
    .node (fun _ => List.forall_mem_nil _) (List.forall_mem_nil _)
  exact ⟨Demand.holds_of_isComment hcomments hkind, hbodied⟩

theorem good_withRole {t : Tree} {r : Role} (ht : Good isClass (d.within r) t) :
    Good isClass d (t.withRole r) := by
  obtain ⟨kind, role, start, stop, children⟩ := t
  obtain ⟨hholds, hlaw, hchildren⟩ := ht
  exact ⟨Demand.holds_of_within hholds, .node hlaw hchildren⟩

/-- A node around good trees, whose leading comments stay outside. -/
theorem good_enclose (hcomments : ∀ k, k.isComment = true → isClass k = false) {kind : Kind}
    {newest acc : List Tree} (hkind : d.holds isClass kind none = true)
    (hnewest : ∀ t ∈ newest, t.BlockBodied isClass)
    (hclass : isClass kind = true → ∀ t ∈ newest, Good isClass .blockIfBody t)
    (hacc : ∀ t ∈ acc, Good isClass d t) (at_ : Nat) :
    ∀ t ∈ enclose kind at_ newest acc, Good isClass d t := by
  have hinner : ∀ t ∈ newest.reverse.dropWhile (·.kind.isComment), t ∈ newest := fun t ht =>
    List.mem_reverse.mp ((List.dropWhile_sublist _).subset ht)
  rw [enclose]
  refine List.forall_mem_cons.mpr ⟨⟨hkind, .node (fun hk t ht hrole => ?_) fun t ht => ?_⟩, ?_⟩
  · have hgood := (hclass hk t (hinner t ht)).1
    simpa [Demand.holds, hrole] using hgood
  · exact hnewest t (hinner t ht)
  · refine List.forall_mem_append.mpr ⟨fun t ht => ?_, hacc⟩
    have hleading := List.mem_reverse.mp ht
    have hmem : t ∈ newest := List.mem_reverse.mp ((List.takeWhile_sublist _).subset hleading)
    refine ⟨Demand.holds_of_isComment hcomments ?_, hnewest t hmem⟩
    exact List.mem_takeWhile_imp (p := fun u : Tree => u.kind.isComment) hleading

theorem good_append_notes (hcomments : ∀ k, k.isComment = true → isClass k = false)
    {notes acc : List Tree} (hnotes : ∀ t ∈ notes, t.IsNote) (hacc : ∀ t ∈ acc, Good isClass d t) :
    ∀ t ∈ notes.reverse ++ acc, Good isClass d t :=
  List.forall_mem_append.mpr
    ⟨fun t ht => good_of_isNote hcomments (hnotes t (List.mem_reverse.mp ht)), hacc⟩

theorem meets_anything (blocks : N → Bool) (p : Pattern N) :
    p.meets isClass blocks .anything = true := by
  induction p with
  | seq a b iha ihb | alt a b iha ihb => exact Bool.and_eq_true_iff.mpr ⟨iha, ihb⟩
  | many a ih | inRole _ a ih | group a ih | growOn a ih | lines _ a ih => exact ih
  | empty | token _ _ | adjoined _ _ | layout _ | call _ | node _ _ | peek _ | avoid _ => rfl

namespace IsSettled

variable {src : Source} {fuel : Nat}

theorem meets_rule (hg : g.IsSettled isClass blocks) {n : N}
    (h : (Pattern.call n).meets isClass blocks d = true) :
    (g.rule n).meets isClass blocks d = true := by
  cases d with
  | anything => exact meets_anything blocks _
  | blockIfBody => exact hg.bodies n
  | block => exact hg.blocks n h
  | noClass => cases h

/-- With the fuel, the trees of a reading meet each demand that the pattern has been checked for. -/
def ReadsWell (g : Grammar N) (isClass : Kind → Bool) (blocks : N → Bool) (src : Source)
    (fuel : Nat) : Prop :=
  ∀ (strict : Bool) (p : Pattern N) (at_ : Place) (acc : List Tree) (reach : Nat) (d : Demand),
    p.Keeps → p.isSettled isClass blocks = true → p.meets isClass blocks d = true →
    (∀ t ∈ at_.comments, t.IsNote) → (∀ t ∈ acc, Good isClass d t) →
    Reads isClass d (g.run src fuel strict p at_ acc reach)

section

variable {strict : Bool} {a : Pattern N} {at_ : Place} {acc : List Tree}

theorem reads_node (hg : g.IsSettled isClass blocks) (ih : ReadsWell g isClass blocks src fuel)
    {kind : Kind} (reach : Nat) (hkeeps : a.Keeps)
    (hsettled : (Pattern.node kind a).isSettled isClass blocks = true)
    (hkind : d.holds isClass kind none = true) (hat : ∀ t ∈ at_.comments, t.IsNote)
    (hacc : ∀ t ∈ acc, Good isClass d t) :
    Reads isClass d (g.run src (fuel + 1) strict (.node kind a) at_ acc reach) := by
  obtain ⟨hbodies, hsettledA⟩ := Bool.and_eq_true_iff.mp hsettled
  have ha := ih strict a at_ [] reach .anything hkeeps hsettledA (meets_anything blocks a) hat
    (List.forall_mem_nil _)
  rw [run]
  split
  · exact reads_none _
  · next place inner heq =>
    obtain ⟨hplace, hinner⟩ := ha.of_eq heq
    refine reads_some hplace (good_enclose hg.comments hkind (fun t ht => (hinner t ht).2) ?_
      hacc _) _
    -- the body of a class meets another demand, by the same reading
    intro hclass
    rw [hclass, Bool.not_true, Bool.false_or] at hbodies
    have hb := ih strict a at_ [] reach .blockIfBody hkeeps hsettledA hbodies hat
      (List.forall_mem_nil _)
    exact (hb.of_eq heq).2

theorem reads_inRole (hg : g.IsSettled isClass blocks) (ih : ReadsWell g isClass blocks src fuel)
    {role : Role} (reach : Nat) (hkeeps : a.Keeps) (hsettled : a.isSettled isClass blocks = true)
    (hmeets : a.meets isClass blocks (d.within role) = true) (hat : ∀ t ∈ at_.comments, t.IsNote)
    (hacc : ∀ t ∈ acc, Good isClass d t) :
    Reads isClass d (g.run src (fuel + 1) strict (.inRole role a) at_ acc reach) := by
  have ha := ih strict a at_ [] reach _ hkeeps hsettled hmeets hat (List.forall_mem_nil _)
  rw [run]
  split
  · exact reads_none _
  · next place inner heq =>
    obtain ⟨hplace, hinner⟩ := ha.of_eq heq
    refine reads_some hplace (List.forall_mem_append.mpr ⟨fun t ht => ?_, hacc⟩) _
    obtain ⟨u, hu, rfl⟩ := List.mem_map.mp ht
    split
    · next hcomment => exact ⟨Demand.holds_of_isComment hg.comments hcomment, (hinner u hu).2⟩
    · exact good_withRole (hinner u hu)

theorem reads_growOn (hg : g.IsSettled isClass blocks) (ih : ReadsWell g isClass blocks src fuel)
    (reach : Nat) (hkeeps : a.Keeps)
    (hsettled : (Pattern.growOn a).isSettled isClass blocks = true)
    (hmeets : a.meets isClass blocks d = true) (hat : ∀ t ∈ at_.comments, t.IsNote)
    (hacc : ∀ t ∈ acc, Good isClass d t) :
    Reads isClass d (g.run src (fuel + 1) strict (.growOn a) at_ acc reach) := by
  obtain ⟨hnoClass, hsettledA⟩ := Bool.and_eq_true_iff.mp hsettled
  have ha := ih strict a at_ [] reach d hkeeps hsettledA hmeets hat (List.forall_mem_nil _)
  have hn := ih strict a at_ [] reach .noClass hkeeps hsettledA hnoClass hat (List.forall_mem_nil _)
  rw [run]
  split
  · next place kind role start stop cs leading heq =>
    obtain ⟨hplace, hout⟩ := ha.of_eq heq
    obtain ⟨hhead, hleading⟩ := List.forall_mem_cons.mp hout
    have hkind : (!isClass kind) = true := ((hn.of_eq heq).2 _ List.mem_cons_self).1
    refine ih strict (.growOn a) place _ _ d hkeeps hsettled hmeets hplace ?_
    refine good_enclose hg.comments (Demand.holds_none hhead.1) ?_ ?_ (List.forall_mem_nil _) _
    · refine List.forall_mem_append.mpr ⟨List.forall_mem_append.mpr ⟨fun t ht => ?_, ?_⟩, ?_⟩
      · exact hhead.2.of_mem (List.mem_reverse.mp ht)
      · exact fun t ht => (hleading t ht).2
      · exact fun t ht => (hacc t ht).2
    · intro (hclass : isClass kind = true)
      rw [hclass] at hkind
      cases hkind
  · exact reads_some hat hacc _

end

theorem good_run (hg : g.IsSettled isClass blocks) (src : Source) (fuel : Nat) :
    ReadsWell g isClass blocks src fuel := by
  -- on the fuel, for all demands at once: what is in a node is held to two of them
  induction fuel with
  | zero =>
    intro strict p at_ acc reach d _ _ _ _ _
    rw [run]
    exact reads_none _
  | succ fuel ih =>
    intro strict p at_ acc reach d hkeeps hsettled hmeets hat hacc
    cases p with
    | empty =>
      rw [run]
      exact reads_some hat hacc _
    | token kind lexeme =>
      rw [run]
      split
      · exact reads_none _
      · split
        · exact reads_none _
        · refine reads_some (hg.trivia _ _ _) (List.forall_mem_cons.mpr ⟨?_, ?_⟩) _
          · exact ⟨hmeets, blockBodied_leaf _ _ _⟩
          · exact good_append_notes hg.comments hat hacc
    | adjoined kind lexeme =>
      rw [run]
      split
      · exact reads_none _
      · refine reads_some (hg.trivia _ _ _) (List.forall_mem_cons.mpr ⟨?_, hacc⟩) _
        exact ⟨hmeets, blockBodied_leaf _ _ _⟩
    | layout step =>
      rw [run]
      split
      · exact reads_none _
      · next kept place hstep =>
        obtain ⟨hkept, hplace⟩ := hkeeps src at_ kept place hstep hat
        exact reads_some hplace (good_append_notes hg.comments hkept hacc) _
    | call name =>
      rw [run]
      exact ih strict _ at_ acc reach d (hg.keeps name) (hg.settled name) (hg.meets_rule hmeets) hat
        hacc
    | seq a b =>
      obtain ⟨hkeepsA, hkeepsB⟩ := hkeeps
      obtain ⟨hsettledA, hsettledB⟩ := Bool.and_eq_true_iff.mp hsettled
      obtain ⟨hmeetsA, hmeetsB⟩ := Bool.and_eq_true_iff.mp hmeets
      have ha := ih strict a at_ acc reach d hkeepsA hsettledA hmeetsA hat hacc
      rw [run]
      split
      · exact reads_none _
      · next place acc' heq =>
        obtain ⟨hplace, hacc'⟩ := ha.of_eq heq
        exact ih strict b place acc' _ d hkeepsB hsettledB hmeetsB hplace hacc'
    | alt a b =>
      obtain ⟨hkeepsA, hkeepsB⟩ := hkeeps
      obtain ⟨hsettledA, hsettledB⟩ := Bool.and_eq_true_iff.mp hsettled
      obtain ⟨hmeetsA, hmeetsB⟩ := Bool.and_eq_true_iff.mp hmeets
      rw [run]
      split
      · exact ih strict b at_ acc _ d hkeepsB hsettledB hmeetsB hat hacc
      · exact ih strict a at_ acc reach d hkeepsA hsettledA hmeetsA hat hacc
    | many a =>
      have ha := ih strict a at_ acc reach d hkeeps hsettled hmeets hat hacc
      rw [run]
      split
      · exact reads_some hat hacc _
      · next place acc' heq =>
        obtain ⟨hplace, hacc'⟩ := ha.of_eq heq
        split
        · exact reads_some hplace hacc' _
        · exact ih strict (.many a) place acc' _ d hkeeps hsettled hmeets hplace hacc'
    | node kind a => exact reads_node hg ih reach hkeeps hsettled hmeets hat hacc
    | inRole role a => exact reads_inRole hg ih reach hkeeps hsettled hmeets hat hacc
    | group a =>
      have ha := ih strict a at_ [] reach d hkeeps hsettled hmeets hat (List.forall_mem_nil _)
      rw [run]
      split
      · exact reads_none _
      · next place inner heq =>
        obtain ⟨hplace, hinner⟩ := ha.of_eq heq
        exact reads_some hplace (List.forall_mem_append.mpr ⟨hinner, hacc⟩) _
    | growOn a => exact reads_growOn hg ih reach hkeeps hsettled hmeets hat hacc
    | peek a =>
      rw [run]
      split
      · exact reads_none _
      · exact reads_some hat hacc _
    | avoid a =>
      rw [run]
      split
      · exact reads_some hat hacc _
      · exact reads_none _
    | lines significant a =>
      rw [run]
      exact ih significant a at_ acc reach d hkeeps hsettled hmeets hat hacc

/-- In the tree of a whole source the bodies of classes are blocks. -/
theorem blockBodied_parse (hg : g.IsSettled isClass blocks) {top : Pattern N} (hkeeps : top.Keeps)
    (hsettled : top.isSettled isClass blocks = true) (hroot : isClass .root = false) (src : Source) :
    (g.parse top src).BlockBodied isClass := by
  have hnode : ∀ {stop : Nat} {children : List Tree}, (∀ t ∈ children, t.BlockBodied isClass) →
      (Tree.node .root none 0 stop children).BlockBodied isClass := fun hchildren =>
    .node (fun h => absurd (hroot.symm.trans h) Bool.false_ne_true) hchildren
  have hleaf : ∀ {start stop : Nat}, ∀ t ∈ [Tree.leaf .error start stop], t.BlockBodied isClass :=
    List.forall_mem_singleton.mpr (blockBodied_leaf _ _ _)
  have hreads := hg.good_run src (fuelFor src.size) g.linewise top
    { g.trivia src (if src[0]? == some '\uFEFF' then 1 else 0) [0] with broken := false } [] 0
    .anything hkeeps hsettled (meets_anything blocks top) (hg.trivia _ _ _) (List.forall_mem_nil _)
  rw [parse]
  dsimp only
  split
  · next reach place newest heq =>
    obtain ⟨hplace, hnewest⟩ := hreads.of_eq heq
    split
    · refine hnode (List.forall_mem_append.mpr ⟨fun t ht => ?_, fun t ht => ?_⟩)
      · exact (hnewest t (List.mem_reverse.mp ht)).2
      · exact (good_of_isNote (d := .anything) hg.comments (hplace t ht)).2
    · exact hnode hleaf
  · exact hnode hleaf

end IsSettled

end Grammar

/-! ## The languages -/

theorem Tree.isNote_leaf {k : Kind} (hk : k.isComment = true) (start stop : Nat) :
    (leaf k start stop).IsNote :=
  ⟨hk, rfl⟩

theorem Pattern.keepsNotes_of_same {step : Source → Place → Option (List Tree × Place)}
    (h : ∀ src place found, step src place = some found → found = ([], place)) :
    KeepsNotes step := by
  intro src place kept place' hstep hnotes
  cases h src place _ hstep
  exact ⟨List.forall_mem_nil _, hnotes⟩

theorem Tree.isNote_reverse {notes : List Tree} (h : ∀ t ∈ notes, t.IsNote) :
    ∀ t ∈ notes.reverse, t.IsNote := fun t ht => h t (List.mem_reverse.mp ht)

namespace Java

theorem isNote_skipTrivia {src : Source} {fuel i : Nat} {comments : List Tree}
    (h : ∀ t ∈ comments, t.IsNote) : ∀ t ∈ (skipTrivia src fuel i comments).2, t.IsNote := by
  induction fuel generalizing i comments with
  | zero =>
    rw [skipTrivia]
    exact Tree.isNote_reverse h
  | succ fuel ih =>
    rw [skipTrivia]
    repeat' split
    all_goals
      first
        | exact Tree.isNote_reverse h
        | exact ih h
        | exact ih (List.forall_mem_cons.mpr ⟨Tree.isNote_leaf rfl _ _, h⟩)

/-- The rules that make blocks. -/
def isBlockRule : Rule → Bool
  | .classBody | .block => true
  | _ => false

theorem isSettled_grammar : grammar.IsSettled isType isBlockRule where
  comments k hk := by cases k <;> first | rfl | cases hk
  trivia src stop indents := by
    show ∀ t ∈ (skipTrivia src (src.size - stop + 1) stop []).2, t.IsNote
    exact isNote_skipTrivia (List.forall_mem_nil _)
  keeps n := by
    cases n
    all_goals
      repeat' first
        | apply And.intro
        | exact trivial
  settled n := by cases n <;> decide +kernel
  bodies n := by cases n <;> decide +kernel
  blocks n hn := by
    cases n
    case classBody => decide +kernel
    case block => decide +kernel
    all_goals cases hn

theorem blockBodied_parse (src : Source) : (parse src).BlockBodied isType := by
  refine isSettled_grammar.blockBodied_parse ?_ rfl rfl src
  repeat' first
    | apply And.intro
    | exact trivial

end Java

namespace Script

theorem isNote_skipTrivia {src : Source} {fuel i : Nat} {broken : Bool} {comments : List Tree}
    (h : ∀ t ∈ comments, t.IsNote) : ∀ t ∈ (skipTrivia src fuel i broken comments).2.2, t.IsNote := by
  induction fuel generalizing i broken comments with
  | zero =>
    rw [skipTrivia]
    exact Tree.isNote_reverse h
  | succ fuel ih =>
    rw [skipTrivia]
    repeat' split
    all_goals
      first
        | exact Tree.isNote_reverse h
        | exact ih h
        | exact ih (List.forall_mem_cons.mpr ⟨Tree.isNote_leaf rfl _ _, h⟩)

theorem keepsNotes_impliedSemicolon : Pattern.KeepsNotes impliedSemicolon :=
  Pattern.keepsNotes_of_same fun src place found h => by
    rw [impliedSemicolon] at h
    split at h
    · cases h
      rfl
    · cases h

theorem keepsNotes_impliedSeparator : Pattern.KeepsNotes impliedSeparator :=
  Pattern.keepsNotes_of_same fun src place found h => by
    rw [impliedSeparator] at h
    split at h
    · cases h
      rfl
    · cases h

theorem keepsNotes_sameLine : Pattern.KeepsNotes sameLine :=
  Pattern.keepsNotes_of_same fun src place found h => by
    rw [sameLine] at h
    split at h
    · cases h
    · cases h
      rfl

/-- The rules that make blocks. -/
def isBlockRule : Rule → Bool
  | .classBody | .block => true
  | _ => false

theorem checked_rule (n : Rule) : ∀ types markup : Bool,
    (rule ⟨types, markup⟩ n).isSettled isClass isBlockRule = true ∧
      (rule ⟨types, markup⟩ n).meets isClass isBlockRule .blockIfBody = true ∧
      (isBlockRule n = true → (rule ⟨types, markup⟩ n).meets isClass isBlockRule .block = true) := by
  cases n <;> decide +kernel

theorem isSettled_grammar (d : Dialect) : (grammar d).IsSettled isClass isBlockRule where
  comments k hk := by cases k <;> first | rfl | cases hk
  trivia src stop indents := by
    show ∀ t ∈ (skipTrivia src (src.size - stop + 1) stop false []).2.2, t.IsNote
    exact isNote_skipTrivia (List.forall_mem_nil _)
  keeps n := by
    cases n
    all_goals
      repeat' first
        | apply And.intro
        | exact trivial
        | apply Pattern.keeps_ite
        | exact keepsNotes_impliedSemicolon
        | exact keepsNotes_impliedSeparator
        | exact keepsNotes_sameLine
  settled n := (checked_rule n d.types d.markup).1
  bodies n := (checked_rule n d.types d.markup).2.1
  blocks n := (checked_rule n d.types d.markup).2.2

theorem blockBodied_parse (d : Dialect) (src : Source) : (parse d src).BlockBodied isClass := by
  refine (isSettled_grammar d).blockBodied_parse ?_ rfl rfl src
  repeat' first
    | apply And.intro
    | exact trivial

end Script

namespace Python

theorem isNote_skipTrivia {src : Source} {fuel i : Nat} {broken : Bool} {comments : List Tree}
    (h : ∀ t ∈ comments, t.IsNote) : ∀ t ∈ (skipTrivia src fuel i broken comments).2.2, t.IsNote := by
  induction fuel generalizing i broken comments with
  | zero =>
    rw [skipTrivia]
    exact Tree.isNote_reverse h
  | succ fuel ih =>
    rw [skipTrivia]
    repeat' split
    all_goals
      first
        | exact Tree.isNote_reverse h
        | exact ih h
        | exact ih (List.forall_mem_cons.mpr ⟨Tree.isNote_leaf rfl _ _, h⟩)

theorem isNote_sameLine (src : Source) {place : Place} (h : ∀ t ∈ place.comments, t.IsNote) :
    (∀ t ∈ (sameLine src place).1, t.IsNote) ∧
      ∀ t ∈ (sameLine src place).2.comments, t.IsNote := by
  rw [sameLine]
  split
  · next c rest hcomments =>
    rw [hcomments] at h
    obtain ⟨hc, hrest⟩ := List.forall_mem_cons.mp h
    split
    · exact ⟨List.forall_mem_nil _, hcomments ▸ h⟩
    · exact ⟨List.forall_mem_singleton.mpr hc, hrest⟩
  · exact ⟨List.forall_mem_nil _, h⟩

theorem keepsNotes_lineEnd : Pattern.KeepsNotes lineEnd := by
  intro src place kept place' h hnotes
  rw [lineEnd] at h
  dsimp only at h
  split at h
  · cases h
    exact isNote_sameLine src hnotes
  · cases h

theorem keepsNotes_indent : Pattern.KeepsNotes indent := by
  intro src place kept place' h hnotes
  rw [indent] at h
  dsimp only at h
  split at h
  · cases h
    exact isNote_sameLine src hnotes
  · cases h

theorem isNote_dedentAfter {src : Source} {width : Nat} {comments kept : List Tree} {stop : Nat}
    (hcomments : ∀ t ∈ comments, t.IsNote) (hkept : ∀ t ∈ kept, t.IsNote)
    {found : List Tree × Nat × List Tree}
    (h : dedentAfter src width comments kept stop = some found) :
    (∀ t ∈ found.1, t.IsNote) ∧ ∀ t ∈ found.2.2, t.IsNote := by
  induction comments generalizing kept stop with
  | nil =>
    rw [dedentAfter] at h
    split at h
    · cases h
      exact ⟨Tree.isNote_reverse hkept, hcomments⟩
    · cases h
  | cons c rest ih =>
    obtain ⟨hc, hrest⟩ := List.forall_mem_cons.mp hcomments
    rw [dedentAfter] at h
    split at h
    · cases h
      exact ⟨Tree.isNote_reverse hkept, hcomments⟩
    · exact ih hrest (List.forall_mem_cons.mpr ⟨hc, hkept⟩) h

theorem keepsNotes_dedent : Pattern.KeepsNotes dedent := by
  intro src place kept place' h hnotes
  rw [dedent] at h
  split at h
  · cases h
  · obtain ⟨found, hfound, heq⟩ := Option.map_eq_some_iff.mp h
    cases heq
    exact isNote_dedentAfter hnotes (List.forall_mem_nil _) hfound

/-- The rules that make blocks. -/
def isBlockRule : Rule → Bool
  | .suite => true
  | _ => false

theorem isSettled_grammar : grammar.IsSettled (· == .classDefinition) isBlockRule where
  comments k hk := by cases k <;> first | rfl | cases hk
  trivia src stop indents := by
    show ∀ t ∈ (skipTrivia src (src.size - stop + 1) stop false []).2.2, t.IsNote
    exact isNote_skipTrivia (List.forall_mem_nil _)
  keeps n := by
    cases n
    all_goals
      repeat' first
        | apply And.intro
        | exact trivial
        | apply Pattern.keeps_ite
        | exact keepsNotes_lineEnd
        | exact keepsNotes_indent
        | exact keepsNotes_dedent
  settled n := by cases n <;> decide +kernel
  bodies n := by cases n <;> decide +kernel
  blocks n hn := by
    cases n
    case suite => decide +kernel
    all_goals cases hn

theorem blockBodied_parse (src : Source) : (parse src).BlockBodied (· == .classDefinition) := by
  refine isSettled_grammar.blockBodied_parse ?_ rfl rfl src
  repeat' first
    | apply And.intro
    | exact trivial

end Python

end CodeAtlas
