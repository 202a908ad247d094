import GraphVault.Operation.Builtin
import GraphVault.Proofs.Copies
import GraphVault.Proofs.Derivation
import Mathlib.Data.List.Nodup

/-!
# What output guids denote

The guid of an output names a computation: a class, its parameters, and the guids of its inputs,
which name computations themselves. So it denotes what the computation comes to, and where guids are
not ambiguous, it denotes nothing else.
-/

namespace GraphVault

/-- The example graph by slot. -/
def exampleParts (vertices : Guid) : List (String × Entity) :=
  ("vertices", .vertexSet ⟨[0, 1, 2, 3]⟩) ::
    ("edges", .edgeBundle (Operation.exampleEdges vertices)) :: Operation.exampleColumns vertices

/-- The class that fills columns of a type with one constant. -/
def constantClass : ColumnType → Option String
  | .double => some "AddConstantDoubleAttribute"
  | .string => some "AddConstantStringAttribute"
  | .pair => none

/-- The entities that the output guids of executed instances denote. -/
inductive Denotes (executed : Instance → Prop) : Guid → Entity → Prop where
  /-- A part of the example graph, over the vertex set of its own instance. -/
  | exampleGraph {i : Instance} {vertices guid : Guid} {slot : String} {entity : Entity}
      (hi : Accepted executed i) (hclass : i.className = "ExampleGraph")
      (hvertices : i.outputs.get? "vertices" = some vertices)
      (hentity : (slot, entity) ∈ exampleParts vertices)
      (hslot : i.outputs.get? slot = some guid) : Denotes executed guid entity
  /-- As many cells of one value as the input has positions. -/
  | constantColumn {i : Instance} {type : ColumnType} {value : type.Cell} {input guid : Guid}
      {set : VertexSet} (hi : Accepted executed i)
      (hclass : constantClass type = some i.className)
      (hvalue : type.codec.read i.description.params = .ok value)
      (hinput : i.inputs.get? "vs" = some input) (hset : Denotes executed input (.vertexSet set))
      (hslot : i.outputs.get? "attr" = some guid) :
      Denotes executed guid
        (.column type (Attribute.dense input (List.replicate set.size value)))
  /-- The edges of the input with their ends exchanged. -/
  | reverseEdges {i : Instance} {input guid : Guid} {bundle : EdgeBundle}
      (hi : Accepted executed i) (hclass : i.className = "ReverseEdges")
      (hinput : i.inputs.get? "es" = some input)
      (hbundle : Denotes executed input (.edgeBundle bundle))
      (hslot : i.outputs.get? "reversed" = some guid) :
      Denotes executed guid (.edgeBundle bundle.reverse)

variable {executed executed' : Instance → Prop} {guid : Guid} {entity other : Entity}

/-- What is denoted is denoted by an output of an accepted instance. -/
theorem Denotes.exists_instance (h : Denotes executed guid entity) :
    ∃ i slot, Accepted executed i ∧ i.outputs.get? slot = some guid := by
  cases h with
  | exampleGraph hi _ _ _ hslot => exact ⟨_, _, hi, hslot⟩
  | constantColumn hi _ _ _ _ hslot => exact ⟨_, _, hi, hslot⟩
  | reverseEdges hi _ _ _ hslot => exact ⟨_, _, hi, hslot⟩

/-- More executed instances denote more. -/
theorem Denotes.mono (h : Denotes executed guid entity) (hsub : ∀ i, executed i → executed' i) :
    Denotes executed' guid entity := by
  induction h with
  | exampleGraph hi hclass hvertices hentity hslot =>
    exact .exampleGraph (hi.mono hsub) hclass hvertices hentity hslot
  | constantColumn hi hclass hvalue hinput _ hslot ih =>
    exact .constantColumn (hi.mono hsub) hclass hvalue hinput ih hslot
  | reverseEdges hi hclass hinput _ hslot ih =>
    exact .reverseEdges (hi.mono hsub) hclass hinput ih hslot

/-! ### A guid denotes one entity -/

theorem exampleParts_unique {vertices : Guid} {slot : String}
    (h : (slot, entity) ∈ exampleParts vertices) (h' : (slot, other) ∈ exampleParts vertices) :
    entity = other := by
  have hnodup : ((exampleParts vertices).map Prod.fst).Nodup := by
    change ["vertices", "edges", "name", "age", "gender", "income", "location"].Nodup
    decide
  have heq := List.inj_on_of_nodup_map hnodup h h' rfl
  exact congrArg Prod.snd heq

theorem constantClass_inj {type type' : ColumnType} {name : String}
    (h : constantClass type = some name) (h' : constantClass type' = some name) : type = type' := by
  have heq := h.trans h'.symm
  cases type with
  | double => cases type' <;> first | rfl | exact absurd heq (by decide)
  | string => cases type' <;> first | rfl | exact absurd heq (by decide)
  | pair => cases h

theorem constantClass_ne {type : ColumnType} {name : String}
    (h : constantClass type = some name) : name ≠ "ExampleGraph" ∧ name ≠ "ReverseEdges" := by
  cases type with
  | double =>
    cases h
    decide
  | string =>
    cases h
    decide
  | pair => cases h

/-- What a guid denotes is what the instance computes that has the guid as an output. -/
private theorem Denotes.computed (h : Unambiguous executed) {i : Instance} {slot : String}
    (hi : Accepted executed i) (hslot : i.outputs.get? slot = some guid)
    (hentity : Denotes executed guid entity) :
    (i.className = "ExampleGraph" ∧
      (slot, entity) ∈ exampleParts (Derivation.outputGuid i.guid "vertices")) ∨
    (∃ (type : ColumnType) (value : type.Cell) (input : Guid) (set : VertexSet),
      constantClass type = some i.className ∧ type.codec.read i.description.params = .ok value ∧
      i.inputs.get? "vs" = some input ∧ Denotes executed input (.vertexSet set) ∧
      entity = .column type (Attribute.dense input (List.replicate set.size value))) ∨
    (i.className = "ReverseEdges" ∧ ∃ input bundle, i.inputs.get? "es" = some input ∧
      Denotes executed input (.edgeBundle bundle) ∧ entity = .edgeBundle bundle.reverse) := by
  cases hentity with
  | exampleGraph hj hclass hvertices hpart hslot' =>
    obtain ⟨howner, hdescription, -, rfl⟩ := h.output_unique hi hj hslot hslot'
    rw [Instance.className, ← hdescription] at hclass
    rw [hj.output_eq hvertices, ← howner] at hpart
    exact .inl ⟨hclass, hpart⟩
  | constantColumn hj hclass hvalue hinput hset hslot' =>
    obtain ⟨-, hdescription, hinputs, -⟩ := h.output_unique hi hj hslot hslot'
    rw [Instance.className, ← hdescription] at hclass
    rw [← hdescription] at hvalue
    rw [← hinputs] at hinput
    exact .inr (.inl ⟨_, _, _, _, hclass, hvalue, hinput, hset, rfl⟩)
  | reverseEdges hj hclass hinput hbundle hslot' =>
    obtain ⟨-, hdescription, hinputs, -⟩ := h.output_unique hi hj hslot hslot'
    rw [Instance.className, ← hdescription] at hclass
    rw [← hinputs] at hinput
    exact .inr (.inr ⟨hclass, _, _, hinput, hbundle, rfl⟩)

theorem Denotes.unique (h : Unambiguous executed) (hentity : Denotes executed guid entity)
    (hother : Denotes executed guid other) : entity = other := by
  induction hentity generalizing other with
  | exampleGraph hi hclass hvertices hpart hslot =>
    obtain ⟨-, hpart'⟩ | ⟨type, -, -, -, hclass', -⟩ | ⟨hclass', -⟩ := hother.computed h hi hslot
    · rw [hi.output_eq hvertices] at hpart
      exact exampleParts_unique hpart hpart'
    · exact absurd hclass (constantClass_ne hclass').1
    · rw [hclass] at hclass'
      exact absurd hclass' (by decide)
  | constantColumn hi hclass hvalue hinput hset hslot ih =>
    obtain ⟨hclass', -⟩ | ⟨type, value, input, set, hclass', hvalue', hinput', hset', rfl⟩ |
      ⟨hclass', -⟩ := hother.computed h hi hslot
    · exact absurd hclass' (constantClass_ne hclass).1
    · obtain rfl := constantClass_inj hclass hclass'
      rw [hvalue, Except.ok.injEq] at hvalue'
      rw [hinput, Option.some.injEq] at hinput'
      subst hvalue' hinput'
      cases ih hset'
      rfl
    · exact absurd hclass' (constantClass_ne hclass).2
  | reverseEdges hi hclass hinput hbundle hslot ih =>
    obtain ⟨hclass', -⟩ | ⟨type, -, -, -, hclass', -⟩ | ⟨-, input, bundle, hinput', hbundle', rfl⟩ :=
      hother.computed h hi hslot
    · rw [hclass] at hclass'
      exact absurd hclass' (by decide)
    · exact absurd hclass (constantClass_ne hclass').2
    · rw [hinput, Option.some.injEq] at hinput'
      subst hinput'
      cases ih hbundle'
      rfl

/-! ### What guids denote is coherent -/

open Classical in
/-- What each guid denotes, if it denotes anything. -/
noncomputable def meaning (executed : Instance → Prop) : Assignment := fun guid =>
  if h : ∃ entity, Denotes executed guid entity then some h.choose else none

theorem meaning_eq_some_iff (h : Unambiguous executed) :
    meaning executed guid = some entity ↔ Denotes executed guid entity := by
  unfold meaning
  constructor
  · intro hsome
    split at hsome
    · rename_i hexists
      rw [← Option.some.inj hsome]
      exact hexists.choose_spec
    · cases hsome
  · intro hdenotes
    have hexists : ∃ entity, Denotes executed guid entity := ⟨entity, hdenotes⟩
    rw [dif_pos hexists, hdenotes.unique h hexists.choose_spec]

private theorem sized_column {type : ColumnType} {cells : Attribute type.Cell}
    (hsize : cells.size < 2 ^ 63) (htexts : ∀ value ∈ cells.values, type.textBytes value < 2 ^ 64) :
    (Entity.column type cells).Sized := by
  constructor
  · exact hsize
  · intro cell hcell
    exact htexts cell.2 (Attribute.mem_values_of_mem_cells hcell)

/-- The columns of the example graph are as long as its vertex set. -/
private theorem exampleColumn_spec {vertices : Guid} {slot : String}
    (h : (slot, entity) ∈ Operation.exampleColumns vertices) :
    ∃ (type : ColumnType) (cells : Attribute type.Cell), entity = .column type cells ∧
      cells.vertexSet = vertices ∧ cells.Aligned 4 ∧
      ∀ value ∈ cells.values, type.textBytes value < 2 ^ 64 := by
  simp only [Operation.exampleColumns, List.mem_cons, Prod.mk.injEq, List.not_mem_nil,
    or_false] at h
  obtain ⟨-, rfl⟩ | ⟨-, rfl⟩ | ⟨-, rfl⟩ | ⟨-, rfl⟩ | ⟨-, rfl⟩ := h
  · refine ⟨.string, _, rfl, rfl, ⟨rfl, rfl⟩, ?_⟩
    change ∀ text ∈ ["Adam", "Eve", "Bob", "Isolated Joe"], text.utf8ByteSize < 2 ^ 64
    decide
  · exact ⟨.double, _, rfl, rfl, ⟨rfl, rfl⟩, fun _ _ => Nat.two_pow_pos 64⟩
  · refine ⟨.string, _, rfl, rfl, ⟨rfl, rfl⟩, ?_⟩
    change ∀ text ∈ ["Male", "Female", "Male", "Male"], text.utf8ByteSize < 2 ^ 64
    decide
  · exact ⟨.double, _, rfl, rfl, ⟨rfl, rfl⟩, fun _ _ => Nat.two_pow_pos 64⟩
  · exact ⟨.pair, _, rfl, rfl, ⟨rfl, rfl⟩, fun _ _ => Nat.two_pow_pos 64⟩

/-- What the parts of the example graph refer to. -/
theorem references_examplePart {vertices : Guid} {slot : String}
    (h : (slot, entity) ∈ exampleParts vertices) : ∀ r ∈ entity.references, r = vertices := by
  intro r hr
  cases h with
  | head => cases hr
  | tail _ h =>
    cases h with
    | head =>
      rw [Entity.mem_references_edgeBundle] at hr
      exact hr.elim id id
    | tail _ h =>
      obtain ⟨type, cells, rfl, rfl, -⟩ := exampleColumn_spec h
      exact Entity.mem_references_column.1 hr

private theorem exampleEdges_aligned (vertices : Guid) :
    (Operation.exampleEdges vertices).Aligned 4 4 := by
  refine ⟨rfl, rfl, ?_, ?_⟩
  · simp [Operation.exampleEdges]
  · simp [Operation.exampleEdges]

theorem examplePart_spec {resolve : Guid → Except Failure VertexSet} {vertices : Guid}
    {slot : String} (hset : resolve vertices = .ok ⟨[0, 1, 2, 3]⟩)
    (hpart : (slot, entity) ∈ exampleParts vertices) : entity.Fits resolve ∧ entity.Sized := by
  cases hpart with
  | head =>
    constructor
    · change [(0 : Int64), 1, 2, 3].Nodup
      decide
    · change 4 < 2 ^ 63
      decide
  | tail _ hpart =>
    cases hpart with
    | head =>
      constructor
      · exact ⟨_, _, hset, hset, exampleEdges_aligned vertices⟩
      · change 4 < 2 ^ 63
        decide
    | tail _ hpart =>
      obtain ⟨type, cells, rfl, rfl, haligned, htexts⟩ := exampleColumn_spec hpart
      constructor
      · exact ⟨_, hset, haligned⟩
      · refine sized_column ?_ htexts
        have hsize : cells.size = 4 := haligned.length_values
        omega

theorem aligned_constant {α : Type} (value : α) (input : Guid) (size : Nat) :
    (Attribute.dense input (List.replicate size value)).Aligned size := by
  constructor <;> simp [Attribute.dense]

private theorem Denotes.sized (h : Unambiguous executed) (hentity : Denotes executed guid entity) :
    entity.Sized := by
  induction hentity with
  | @exampleGraph i vertices guid slot entity hi hclass hvertices hpart hslot =>
    let resolve (_ : Guid) : Except Failure VertexSet := .ok ⟨[0, 1, 2, 3]⟩
    have hspec : entity.Fits resolve ∧ entity.Sized := examplePart_spec rfl hpart
    exact hspec.2
  | @constantColumn i type value input guid set hi hclass hvalue hinput hset hslot ih =>
    apply sized_column
    · have hsize : (Attribute.dense input (List.replicate set.size value)).size = set.size :=
        (aligned_constant value input set.size).length_values
      rw [hsize]
      exact ih
    · intro text htext
      rw [List.eq_of_mem_replicate htext]
      have hlength := ColumnType.textBytes_le_of_read hvalue
      exact Nat.lt_of_le_of_lt hlength (h.measured i hi.executed).params
  | reverseEdges hi hclass hinput hbundle hslot ih => exact ih

private theorem Denotes.fits (h : Unambiguous executed) (hentity : Denotes executed guid entity) :
    entity.Fits (meaning executed).resolver := by
  have hresolve {guid : Guid} {set : VertexSet} (hset : Denotes executed guid (.vertexSet set)) :
      (meaning executed).resolver guid = .ok set :=
    Assignment.resolver_eq_ok_iff.2 ((meaning_eq_some_iff h).2 hset)
  induction hentity with
  | exampleGraph hi hclass hvertices hpart hslot =>
    have hset := Denotes.exampleGraph hi hclass hvertices List.mem_cons_self hvertices
    exact (examplePart_spec (hresolve hset) hpart).1
  | constantColumn hi hclass hvalue hinput hset hslot ih =>
    exact ⟨_, hresolve hset, aligned_constant _ _ _⟩
  | reverseEdges hi hclass hinput hbundle hslot ih => exact ih.reverse

/-- What is denoted fits the vertex sets that are denoted. -/
theorem coherent_meaning (h : Unambiguous executed) : (meaning executed).Coherent := by
  constructor
  · intro guid entity hentity
    exact ((meaning_eq_some_iff h).1 hentity).fits h
  · intro guid entity hentity
    exact ((meaning_eq_some_iff h).1 hentity).sized h

end GraphVault
