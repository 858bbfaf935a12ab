import CodeAtlas.Proofs.Members
import Mathlib.Data.List.Chain
/-!
# The definitions of a Python module

The walk for functions carries the class in whose body it is, gives it up at each function and goes
only into bodies; the walk for classes comes to every node. Here both are compared with a plain
enumeration of all nodes of the tree, each with the nodes around it: no definition is passed over, and
the class that the walk carries is the definition next around, if that is one.

Results:
1. `Tree.spots`, `around_suffix`: all nodes in pre-order, and that each lies where the enumeration
   says.
2. `functionsOf_side`: beside the body of a definition there are no functions.
3. `functionsIn_eq_spots`, `classesIn_eq_spots`: the walks record the definitions of the enumeration.
4. `outline_complete`: so each definition has its record, and a function is a method of the class next
   around it.
-/

namespace CodeAtlas

open Script (Spot)

/-! ## All nodes of a tree -/

namespace Tree

mutual
/-- The nodes of a tree in pre-order, each with its older siblings and the nodes around it. -/
def spots (before : List Tree) (above : List (Tree × List Tree)) : Tree → List Spot
  | .node kind role start stop children =>
    let t := Tree.node kind role start stop children
    ⟨t, before, above⟩ :: spotsInAll [] ((t, before) :: above) children

def spotsInAll (before : List Tree) (above : List (Tree × List Tree)) : List Tree → List Spot
  | [] => []
  | t :: ts => spots before above t ++ spotsInAll (t :: before) above ts
end

/-- The way from a spot to the root: each node with its older siblings, the innermost first. -/
def wayUp (s : Spot) : List (Tree × List Tree) := (s.node, s.before) :: s.above

mutual
/-- The way up from a node of a tree comes to the tree itself. -/
theorem around_suffix (before : List Tree) (above : List (Tree × List Tree)) : (t : Tree) →
    ∀ s ∈ t.spots before above, (t, before) :: above <:+ wayUp s
  | .node kind role start stop children, s, hs => by
    rw [spots] at hs
    rcases List.mem_cons.mp hs with rfl | hs
    · exact List.suffix_rfl
    · obtain ⟨c, older, _, hsuffix⟩ := around_suffix_all [] _ children s hs
      exact (List.suffix_cons (c, older) _).trans hsuffix

/-- A node of some siblings is in one of them, behind those that were before. -/
theorem around_suffix_all (before : List Tree) (above : List (Tree × List Tree)) :
    (ts : List Tree) → ∀ s ∈ spotsInAll before above ts,
      ∃ c older, before <:+ older ∧ (c, older) :: above <:+ wayUp s
  | [], s, hs => absurd hs List.not_mem_nil
  | t :: ts, s, hs => by
    rw [spotsInAll] at hs
    rcases List.mem_append.mp hs with hs | hs
    · exact ⟨t, before, List.suffix_rfl, around_suffix before above t s hs⟩
    · obtain ⟨c, older, hbefore, hsuffix⟩ := around_suffix_all (t :: before) above ts s hs
      exact ⟨c, older, (List.suffix_cons t before).trans hbefore, hsuffix⟩
end

end Tree

namespace Scoping

variable (S : Scoping)

mutual
/-- The classes of a tree are found among its nodes. -/
theorem classes_eq_filter (before : List Tree) (above : List (Tree × List Tree)) : (t : Tree) →
    S.classes before above t = (t.spots before above).filter fun s => S.isClass s.node.kind
  | .node kind role start stop children => by
    rw [classes, Tree.spots, classesInAll_eq_filter]
    by_cases hclass : S.isClass kind = true
    · rw [if_pos hclass, List.filter_cons_of_pos (by exact hclass), List.singleton_append]
    · rw [if_neg hclass, List.filter_cons_of_neg (by exact hclass), List.nil_append]

theorem classesInAll_eq_filter (before : List Tree) (above : List (Tree × List Tree)) :
    (ts : List Tree) → S.classesInAll before above ts =
      (Tree.spotsInAll before above ts).filter fun s => S.isClass s.node.kind
  | [] => rfl
  | t :: ts => by
    rw [classesInAll, Tree.spotsInAll, List.filter_append, classes_eq_filter,
      classesInAll_eq_filter]
end

end Scoping

namespace Python

variable (src : Source)

/-! ## Definitions and what is around them -/

def isDefinition (t : Tree) : Bool := t.kind == .functionDefinition || t.kind == .classDefinition

/-- The function definitions of a tree in pre-order. -/
def functionSpots (root : Tree) : List Spot :=
  (root.spots [] []).filter (·.node.kind == .functionDefinition)

/-- The class definitions of a tree in pre-order. -/
def classSpots (root : Tree) : List Spot :=
  (root.spots [] []).filter (·.node.kind == .classDefinition)

/-- The function or class definition that is next around a spot. -/
def enclosing? (s : Spot) : Option Tree := (s.above.map Prod.fst).find? isDefinition

/-- A node with its older siblings is the body of the node around it, if that is a definition. -/
def IsBodyOf (child parent : Tree × List Tree) : Prop :=
  isDefinition parent.1 = true →
    child.1.role = some .body ∧ ∀ older ∈ child.2, older.role ≠ some .body

instance (child parent : Tree × List Tree) : Decidable (IsBodyOf child parent) :=
  inferInstanceAs (Decidable (_ → _))

/-- Inside of a definition, functions are only found in its body. -/
def KeepsToBodies (root : Tree) : Prop :=
  ∀ s ∈ functionSpots root, (Tree.wayUp s).IsChain IsBodyOf

instance (root : Tree) : Decidable (KeepsToBodies root) :=
  inferInstanceAs (Decidable (∀ s ∈ functionSpots root, _))

/-- Each definition has a name that is not empty. -/
def IsNamed (root : Tree) : Prop :=
  ∀ s ∈ root.spots [] [], isDefinition s.node = true → ∃ name ∈ nameOf src s.node, name ≠ ""

instance (root : Tree) : Decidable (IsNamed src root) :=
  inferInstanceAs (Decidable (∀ s ∈ root.spots [] [], _ → _))

/-- The name of the class that is next around, unless a function is nearer. -/
def ownerAt (above : List (Tree × List Tree)) : Option String :=
  ((above.map Prod.fst).find? isDefinition).bind fun d =>
    if d.kind = .classDefinition then nameOf src d else none

/-- What the record of a function tells of it: a method belongs to the class next around. -/
structure TellsFunction (s : Spot) (f : FunctionRecord) : Prop where
  name : nameOf src s.node = some f.name
  line : f.line = s.node.startLine src
  endLine : f.endLine = s.node.endLine src
  method : ∀ C, f.isMethod = true ∧ f.parentClass = some C ↔
    ∃ d, enclosing? s = some d ∧ d.kind = .classDefinition ∧ nameOf src d = some C
  plain : f.isMethod = false ↔ ∀ d, enclosing? s = some d → d.kind = .functionDefinition

/-- What the record of a class tells of it. -/
structure TellsClass (s : Spot) (c : ClassRecord) : Prop where
  name : nameOf src s.node = some c.name
  line : c.line = s.node.startLine src
  endLine : c.endLine = s.node.endLine src

/-! ## Beside bodies there are no functions -/

variable {src} {before : List Tree} {above : List (Tree × List Tree)} {t : Tree} {ts : List Tree}

/-- The function definitions among some spots. -/
def functionsOf (spots : List Spot) : List Spot :=
  spots.filter (·.node.kind == .functionDefinition)

theorem functionsOf_append (xs ys : List Spot) :
    functionsOf (xs ++ ys) = functionsOf xs ++ functionsOf ys := List.filter_append xs ys

/-- A node that a function is in is the body of what is around, if that is a definition. -/
theorem isBodyOf_of_mem {p : Tree × List Tree} {s : Spot}
    (hsuffix : (t, before) :: p :: above <:+ Tree.wayUp s)
    (hchain : (Tree.wayUp s).IsChain IsBodyOf) : IsBodyOf (t, before) p := by
  obtain ⟨inner, hway⟩ := hsuffix
  rw [← hway] at hchain
  exact (List.isChain_cons_cons.mp hchain.right_of_append).1

/-- In a child of a definition that is not its body there are no functions. -/
theorem functionsOf_side {p : Tree × List Tree} (hp : isDefinition p.1 = true)
    (hlaw : ∀ s ∈ functionsOf (t.spots before (p :: above)), (Tree.wayUp s).IsChain IsBodyOf)
    (hside : t.role ≠ some .body) : functionsOf (t.spots before (p :: above)) = [] := by
  refine List.eq_nil_iff_forall_not_mem.mpr fun s hs => ?_
  have hsuffix := Tree.around_suffix before (p :: above) t s (List.mem_of_mem_filter hs)
  exact hside (isBodyOf_of_mem hsuffix (hlaw s hs) hp).1

/-- Nor are there in the children behind the body. -/
theorem functionsOf_behind {p : Tree × List Tree} (hp : isDefinition p.1 = true)
    (hlaw : ∀ s ∈ functionsOf (Tree.spotsInAll before (p :: above) ts),
      (Tree.wayUp s).IsChain IsBodyOf)
    (hbody : ∃ b ∈ before, b.role = some .body) :
    functionsOf (Tree.spotsInAll before (p :: above) ts) = [] := by
  refine List.eq_nil_iff_forall_not_mem.mpr fun s hs => ?_
  obtain ⟨c, older, holder, hsuffix⟩ :=
    Tree.around_suffix_all before (p :: above) ts s (List.mem_of_mem_filter hs)
  obtain ⟨b, hb, hrole⟩ := hbody
  exact (isBodyOf_of_mem hsuffix (hlaw s hs) hp).2 b (holder.subset hb) hrole

/-! ## The walks and the enumeration -/

variable (src)

/-- The record of the function at a spot. -/
def recordOf (s : Spot) : Option FunctionRecord :=
  functionRecord src (ownerAt src s.above) (around s) s.node

variable {src}

theorem ownerAt_function (ht : t.kind = .functionDefinition) :
    ownerAt src ((t, before) :: above) = none := by
  have hdefinition : isDefinition t = true := by rw [isDefinition, ht]; rfl
  rw [ownerAt, List.map_cons, List.find?_cons_of_pos hdefinition, Option.bind_some, if_neg]
  rw [ht]
  decide

theorem ownerAt_class (ht : t.kind = .classDefinition) :
    ownerAt src ((t, before) :: above) = nameOf src t := by
  have hdefinition : isDefinition t = true := by rw [isDefinition, ht]; rfl
  rw [ownerAt, List.map_cons, List.find?_cons_of_pos hdefinition, Option.bind_some, if_pos ht]

theorem ownerAt_other (ht : isDefinition t = false) :
    ownerAt src ((t, before) :: above) = ownerAt src above := by
  rw [ownerAt, List.map_cons, List.find?_cons_of_neg (by simp [ht]), ownerAt]

mutual
/-- The walk for functions records the function definitions of a tree. -/
theorem functionsIn_eq_spots (before : List Tree) (above : List (Tree × List Tree)) : (t : Tree) →
    (∀ s ∈ functionsOf (t.spots before above), (Tree.wayUp s).IsChain IsBodyOf) →
    functionsIn src (ownerAt src above) (above.head?.map Prod.fst) t =
      (functionsOf (t.spots before above)).filterMap (recordOf src)
  | .node kind role start stop children, hlaw => by
    have hspots : Tree.spots before above (.node kind role start stop children) =
        ⟨.node kind role start stop children, before, above⟩ ::
          Tree.spotsInAll [] ((.node kind role start stop children, before) :: above) children := by
      rw [Tree.spots]
    have hinner : ∀ s ∈ functionsOf (Tree.spotsInAll []
        ((.node kind role start stop children, before) :: above) children),
        (Tree.wayUp s).IsChain IsBodyOf := by
      intro s hs
      refine hlaw s (List.mem_filter.mpr ⟨?_, (List.mem_filter.mp hs).2⟩)
      rw [hspots]
      exact List.mem_cons_of_mem _ (List.mem_of_mem_filter hs)
    rw [hspots, functionsOf, List.filter_cons, Tree.kind]
    -- who owns what is below depends on whether the tree is a definition, and of which kind
    by_cases hfunction : kind = .functionDefinition
    · subst hfunction
      rw [functionsIn]
      refine Eq.trans ?_ (Scoping.filterMap_cons_toList _ _ _).symm
      have hbody := functionsInBody_eq_spots [] (.node .functionDefinition role start stop children)
        before above rfl children hinner
      rw [ownerAt_function rfl] at hbody
      rw [hbody]
      rfl
    · rw [if_neg (by simpa using hfunction)]
      by_cases hclass : kind = .classDefinition
      · subst hclass
        rw [functionsIn]
        have hbody := functionsInBody_eq_spots [] (.node .classDefinition role start stop children)
          before above rfl children hinner
        rwa [ownerAt_class rfl] at hbody
      · have hother : isDefinition (.node kind role start stop children) = false := by
          simp [isDefinition, Tree.kind, hfunction, hclass]
        rw [functionsIn]
        · have hall := functionsInAll_eq_spots [] (.node kind role start stop children) before above
            children hinner
          rwa [ownerAt_other hother] at hall
        · exact hfunction
        · exact hclass
termination_by structural t => t

/-- Inside of a definition it goes on in the first child that is a body. -/
theorem functionsInBody_eq_spots (before : List Tree) (p : Tree) (b : List Tree)
    (above : List (Tree × List Tree)) (hp : isDefinition p = true) : (ts : List Tree) →
    (∀ s ∈ functionsOf (Tree.spotsInAll before ((p, b) :: above) ts),
      (Tree.wayUp s).IsChain IsBodyOf) →
    functionsInBody src (ownerAt src ((p, b) :: above)) p ts =
      (functionsOf (Tree.spotsInAll before ((p, b) :: above) ts)).filterMap (recordOf src)
  | [], _ => rfl
  | t :: ts, hlaw => by
    rw [Tree.spotsInAll, functionsOf_append] at hlaw ⊢
    obtain ⟨hfirst, hothers⟩ := List.forall_mem_append.mp hlaw
    rw [functionsInBody]
    by_cases hrole : t.role = some .body
    · rw [if_pos (beq_iff_eq.mpr hrole),
        functionsOf_behind hp hothers ⟨t, List.mem_cons_self, hrole⟩, List.append_nil]
      exact functionsIn_eq_spots before ((p, b) :: above) t hfirst
    · rw [if_neg (by simpa using hrole), functionsOf_side hp hfirst hrole, List.nil_append]
      exact functionsInBody_eq_spots (t :: before) p b above hp ts hothers
termination_by structural ts => ts

theorem functionsInAll_eq_spots (before : List Tree) (p : Tree) (b : List Tree)
    (above : List (Tree × List Tree)) : (ts : List Tree) →
    (∀ s ∈ functionsOf (Tree.spotsInAll before ((p, b) :: above) ts),
      (Tree.wayUp s).IsChain IsBodyOf) →
    functionsInAll src (ownerAt src ((p, b) :: above)) p ts =
      (functionsOf (Tree.spotsInAll before ((p, b) :: above) ts)).filterMap (recordOf src)
  | [], _ => rfl
  | t :: ts, hlaw => by
    rw [Tree.spotsInAll, functionsOf_append] at hlaw ⊢
    obtain ⟨hfirst, hothers⟩ := List.forall_mem_append.mp hlaw
    rw [functionsInAll, List.filterMap_append]
    congr 1
    · exact functionsIn_eq_spots before ((p, b) :: above) t hfirst
    · exact functionsInAll_eq_spots (t :: before) p b above ts hothers
termination_by structural ts => ts
end

/-- The walk for classes records the class definitions of a tree. -/
theorem classesIn_eq_spots (root : Tree) :
    classesIn src none root = (classSpots root).filterMap (classAt src) := by
  have hclasses := classesIn_eq src [] [] root
  rw [Scoping.classes_eq_filter] at hclasses
  exact hclasses

/-! ## Each definition has its record -/

/-- Where each element has an image, the images are in the same order. -/
theorem forall₂_filterMap {α β : Type} {f : α → Option β} {R : α → β → Prop} {l : List α}
    (h : ∀ a ∈ l, ∃ b, f a = some b ∧ R a b) : List.Forall₂ R l (l.filterMap f) := by
  induction l with
  | nil => exact .nil
  | cons a l ih =>
    obtain ⟨ha, hl⟩ := List.forall_mem_cons.mp h
    obtain ⟨b, hb, hR⟩ := ha
    rw [List.filterMap_cons_some hb]
    exact .cons hR (ih hl)

theorem ownerAt_eq_some_iff {s : Spot} {C : String} : ownerAt src s.above = some C ↔
    ∃ d, enclosing? s = some d ∧ d.kind = .classDefinition ∧ nameOf src d = some C := by
  rw [ownerAt, Option.bind_eq_some_iff]
  refine exists_congr fun d => and_congr_right fun _ => ?_
  by_cases hclass : d.kind = .classDefinition <;> simp [hclass]

mutual
/-- What is around a node of a tree is a node of the tree or was around it before. -/
theorem mem_spots_of_above (before : List Tree) (above : List (Tree × List Tree)) : (t : Tree) →
    ∀ s ∈ t.spots before above, ∀ d ∈ s.above.map Prod.fst,
      d ∈ above.map Prod.fst ∨ ∃ s' ∈ t.spots before above, s'.node = d
  | .node kind role start stop children, s, hs, d, hd => by
    rw [Tree.spots] at hs ⊢
    rcases List.mem_cons.mp hs with rfl | hs
    · exact .inl hd
    · rcases mem_spots_of_above_all [] _ children s hs d hd with habove | ⟨s', hs', hnode⟩
      · rcases List.mem_cons.mp habove with rfl | habove
        · exact .inr ⟨_, List.mem_cons_self, rfl⟩
        · exact .inl habove
      · exact .inr ⟨s', List.mem_cons_of_mem _ hs', hnode⟩

theorem mem_spots_of_above_all (before : List Tree) (above : List (Tree × List Tree)) :
    (ts : List Tree) → ∀ s ∈ Tree.spotsInAll before above ts, ∀ d ∈ s.above.map Prod.fst,
      d ∈ above.map Prod.fst ∨ ∃ s' ∈ Tree.spotsInAll before above ts, s'.node = d
  | [], s, hs, _, _ => absurd hs List.not_mem_nil
  | t :: ts, s, hs, d, hd => by
    rw [Tree.spotsInAll] at hs ⊢
    rcases List.mem_append.mp hs with hs | hs
    · refine (mem_spots_of_above before above t s hs d hd).imp_right fun ⟨s', hs', hnode⟩ => ?_
      exact ⟨s', List.mem_append_left _ hs', hnode⟩
    · refine (mem_spots_of_above_all _ above ts s hs d hd).imp_right fun ⟨s', hs', hnode⟩ => ?_
      exact ⟨s', List.mem_append_right _ hs', hnode⟩
end

/-- In a tree with names no class is nameless, so a function without an owner is in no class. -/
theorem ownerAt_eq_none_iff {root : Tree} (hnamed : IsNamed src root) {s : Spot}
    (hs : s ∈ root.spots [] []) : ownerAt src s.above = none ↔
      ∀ d, enclosing? s = some d → d.kind = .functionDefinition := by
  rw [ownerAt, ← enclosing?]
  cases hd : enclosing? s with
  | none => simp
  | some d =>
    have hdefinition : isDefinition d = true := List.find?_some hd
    have hmem : d ∈ s.above.map Prod.fst := List.mem_of_find?_eq_some hd
    rw [Option.bind_some]
    by_cases hclass : d.kind = .classDefinition
    · obtain ⟨s', hs', rfl⟩ :=
        (mem_spots_of_above [] [] root s hs d hmem).resolve_left List.not_mem_nil
      obtain ⟨name, hname, _⟩ := hnamed s' hs' hdefinition
      rw [if_pos hclass, hname]
      simp [hclass]
    · rw [if_neg hclass]
      simpa [isDefinition, hclass] using hdefinition

/-- In a tree whose definitions have names and are nested in bodies only, each function definition and
each class definition has one record, in pre-order; and a function is a method of the class next
around it, just if no function is nearer. -/
theorem outline_complete {root : Tree} (hbodies : KeepsToBodies root) (hnamed : IsNamed src root) :
    List.Forall₂ (TellsFunction src) (functionSpots root) (outline src root).functions ∧
      List.Forall₂ (TellsClass src) (classSpots root) (outline src root).classes := by
  constructor
  · have hfunctions : (outline src root).functions = (functionSpots root).filterMap (recordOf src) :=
      functionsIn_eq_spots [] [] root hbodies
    rw [hfunctions]
    refine forall₂_filterMap fun s hs => ?_
    obtain ⟨hmem, hkind⟩ := List.mem_filter.mp hs
    have hdefinition : isDefinition s.node = true := Bool.or_eq_true_iff.mpr (.inl hkind)
    obtain ⟨name, hname, hne⟩ := hnamed s hmem hdefinition
    obtain ⟨f, hf, rfl, hline, hendLine, hmethod, hparent⟩ :=
      exists_functionRecord src (ownerAt src s.above) (around s) hname hne
    refine ⟨f, hf, hname, hline, hendLine, fun C => ?_, ?_⟩
    · rw [hmethod, hparent, ← ownerAt_eq_some_iff]
      exact ⟨fun h => h.2, fun h => ⟨by rw [h]; rfl, h⟩⟩
    · rw [hmethod, ← ownerAt_eq_none_iff hnamed hmem, Option.isSome_eq_false_iff,
        Option.isNone_iff_eq_none]
  · have hclasses : (outline src root).classes = (classSpots root).filterMap (classAt src) :=
      classesIn_eq_spots root
    rw [hclasses]
    refine forall₂_filterMap fun s hs => ?_
    obtain ⟨hmem, hkind⟩ := List.mem_filter.mp hs
    have hdefinition : isDefinition s.node = true := Bool.or_eq_true_iff.mpr (.inr hkind)
    obtain ⟨name, hname, hne⟩ := hnamed s hmem hdefinition
    obtain ⟨c, hc, rfl, hline, hendLine⟩ := exists_classRecord src (around s) hname hne
    exact ⟨c, hc, hname, hline, hendLine⟩

/-- A method with a function in it, and a class in the class with a method of its own. -/
def innermostClass : Source :=
  "class C:
  def f():
    def g(): 0
  class D:
    def h(): 0
".toList.toArray

set_option maxRecDepth 100000 in
theorem outline_complete_innermostClass :
    KeepsToBodies (parse innermostClass) ∧ IsNamed innermostClass (parse innermostClass) ∧
      List.Forall₂ (TellsFunction innermostClass) (functionSpots (parse innermostClass))
        (outline innermostClass (parse innermostClass)).functions ∧
      List.Forall₂ (TellsClass innermostClass) (classSpots (parse innermostClass))
        (outline innermostClass (parse innermostClass)).classes := by
  have hbodies : KeepsToBodies (parse innermostClass) := by decide +kernel
  have hnamed : IsNamed innermostClass (parse innermostClass) := by decide +kernel
  exact ⟨hbodies, hnamed, outline_complete hbodies hnamed⟩

end Python

end CodeAtlas
