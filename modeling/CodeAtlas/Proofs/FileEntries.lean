import CodeAtlas.Document.File
import CodeAtlas.Proofs.Members
import Mathlib.Data.List.Forall2
/-!
# What the document about a file tells of its symbols

The document has an entry for each function and each class of a file, in their order. An entry tells
all that is known, except for parameters that have the name of a receiver: of these it tells none, in
whatever language, although in Python the receivers of methods have been left out before.

Results:
1. `tells_functionEntry`, `tells_classEntry`: what an entry tells.
2. `tells_all_iff`: the entry of a function tells all parameters just if none is named like a receiver.
3. `variadic_of_isReceiver`: in Python the parameters that are named so are variadic.
4. `tells_ofFile`: what the document of a file in any language tells.
-/

namespace CodeAtlas

open FileDocument (isReceiver nonEmpty ifTrue parameterEntry functionEntry classEntry ofFile)

/-- An entry tells a list, left out if it is empty. -/
def TellsList {α : Type} (told : Option (List α)) (items : List α) : Prop :=
  told.getD [] = items ∧ (told = none ↔ items = [])

/-- An entry tells a truth, left out if it is false. -/
def TellsTruth (told : Option Bool) (b : Bool) : Prop :=
  told.getD false = b ∧ (told = none ↔ b = false)

theorem tellsList_nonEmpty {α : Type} (items : List α) : TellsList (nonEmpty items) items := by
  cases items <;> simp [TellsList, nonEmpty]

theorem tellsTruth_ifTrue (b : Bool) : TellsTruth (ifTrue b) b := by
  cases b <;> simp [TellsTruth, ifTrue]

structure ParameterEntry.Tells (e : ParameterEntry) (p : Parameter) : Prop where
  name : e.name = p.name
  typeText : e.typeText = p.typeText
  fallback : e.fallback = p.fallback
  isVariadic : TellsTruth e.isVariadic p.isVariadic

/-- The entry tells all of a function, with some of its parameters. -/
structure FunctionEntry.Tells (e : FunctionEntry) (f : FunctionRecord) (told : List Parameter) :
    Prop where
  name : e.name = f.name
  line : e.line = f.line
  signature : e.signature = f.signature
  parameters : List.Forall₂ ParameterEntry.Tells (e.parameters.getD []) told
  noParameters : e.parameters = none ↔ told = []
  returnType : e.returnType = f.returnType
  docstring : e.docstring = f.docstring
  isAsync : TellsTruth e.isAsync f.isAsync
  parentClass : e.parentClass = f.parentClass
  decorators : TellsList e.decorators f.decorators

structure ClassEntry.Tells (e : ClassEntry) (c : ClassRecord) : Prop where
  name : e.name = c.name
  line : e.line = c.line
  parents : TellsList e.parents c.parents
  docstring : e.docstring = c.docstring
  methods : TellsList e.methods c.methods
  decorators : TellsList e.decorators c.decorators

theorem tells_parameterEntry (p : Parameter) : (parameterEntry p).Tells p :=
  ⟨rfl, rfl, rfl, tellsTruth_ifTrue p.isVariadic⟩

theorem tells_functionEntry (f : FunctionRecord) :
    (functionEntry f).Tells f (f.parameters.filter fun p => !isReceiver p) := by
  obtain ⟨htold, hnone⟩ :=
    tellsList_nonEmpty ((f.parameters.filter fun p => !isReceiver p).map parameterEntry)
  refine ⟨rfl, rfl, rfl, ?_, ?_, rfl, rfl, tellsTruth_ifTrue f.isAsync, rfl,
    tellsList_nonEmpty f.decorators⟩
  · rw [functionEntry, htold]
    exact List.forall₂_map_left_iff.mpr (List.forall₂_same.mpr fun p _ => tells_parameterEntry p)
  · exact hnone.trans List.map_eq_nil_iff

theorem tells_classEntry (c : ClassRecord) : (classEntry c).Tells c :=
  ⟨rfl, rfl, tellsList_nonEmpty c.parents, rfl, tellsList_nonEmpty c.methods,
    tellsList_nonEmpty c.decorators⟩

/-- The entry tells all parameters just if none of them is named like a receiver. -/
theorem tells_all_iff (f : FunctionRecord) :
    (functionEntry f).Tells f f.parameters ↔ ∀ p ∈ f.parameters, isReceiver p = false := by
  constructor
  · intro h
    have hsame := h.parameters.length_eq.symm.trans (tells_functionEntry f).parameters.length_eq
    intro p hp
    simpa using List.length_filter_eq_length_iff.mp hsame.symm p hp
  · intro h
    have hall : (f.parameters.filter fun p => !isReceiver p) = f.parameters :=
      List.filter_eq_self.mpr fun p hp => by rw [h p hp]; rfl
    exact hall ▸ tells_functionEntry f

namespace Python

/-- Of the parameters that are named like a receiver, only variadic ones are extracted. -/
theorem variadic_of_isReceiver {src : Source} {root : Tree} {f : FunctionRecord}
    (hf : f ∈ (outline src root).functions) {p : Parameter} (hp : p ∈ f.parameters)
    (hname : FileDocument.isReceiver p = true) : p.isVariadic = true := by
  have hfs : (outline src root).functions = _ := functionsIn_eq src none [] [] root
  rw [hfs] at hf
  obtain ⟨v, -, hv⟩ := List.mem_filterMap.mp hf
  obtain ⟨-, -, -, hparameters⟩ := of_functionRecord src hv
  rw [hparameters] at hp
  obtain ⟨⟨stars, q⟩, hq, rfl⟩ := List.mem_map.mp hp
  rw [parameters] at hq
  split at hq
  · have hkept : (!(!q.isVariadic && FileDocument.isReceiver q)) = true :=
      (List.mem_filter.mp hq).2
    have hname : FileDocument.isReceiver q = true := hname
    rwa [hname, Bool.and_true, Bool.not_not] at hkept
  · cases hq

end Python

/-- The document of a file has an entry for each function and each class, in their order. The entry of
a function tells all of it but the parameters that are named like a receiver, and so all of it just if
none is; in a Python file only variadic parameters are lost in this way. -/
theorem tells_ofFile (l : Language) (path : String) (bytes : ByteArray) (modified : Timestamp) :
    let file := SourceFile.ofBytes l path bytes modified
    let document := ofFile file
    document.functions.Forall₂ (fun e f =>
        e.Tells f (f.parameters.filter fun p => !isReceiver p) ∧
        (e.Tells f f.parameters ↔ ∀ p ∈ f.parameters, isReceiver p = false)) file.functions ∧
      document.classes.Forall₂ ClassEntry.Tells file.classes ∧
      (l = .python → ∀ f ∈ file.functions, ∀ p ∈ f.parameters, isReceiver p = true →
        p.isVariadic = true) := by
  intro file document
  refine ⟨?_, ?_, ?_⟩
  · refine List.forall₂_map_left_iff.mpr (List.forall₂_same.mpr fun f _ => ?_)
    exact ⟨tells_functionEntry f, tells_all_iff f⟩
  · exact List.forall₂_map_left_iff.mpr (List.forall₂_same.mpr fun c _ => tells_classEntry c)
  · rintro rfl f hf p hp hname
    obtain ⟨hnone, -⟩ | ⟨hfunctions, -⟩ := SourceFile.symbols_cases .python path bytes modified
    · have hmem : f ∈ (SourceFile.ofBytes .python path bytes modified).functions := hf
      rw [hnone] at hmem
      cases hmem
    · have hmem : f ∈ (SourceFile.ofBytes .python path bytes modified).functions := hf
      rw [hfunctions] at hmem
      exact Python.variadic_of_isReceiver hmem hp hname

end CodeAtlas
