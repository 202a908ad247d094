import GraphVault.Proofs.JsonValues
import GraphVault.Proofs.Operations
import GraphVault.Proofs.Unambiguity

/-!
# The normal form of parameters

Parameters arrive as JSON, in many spellings, and are kept in their wire form. Written as JSON again
they are a normal form: it describes the same computation, and two values describe the same
computation just if they are decoded to the same parameters.
-/

namespace GraphVault

open GraphVault.Derivation

namespace Json

variable {name recordName : String} {members : List (String × Json)} {value : Json}

/-- Members of other names do not count. -/
theorem lookup_append_cons_of_ne {front back : List (String × Json)} {member : String × Json}
    (h : member.1 ≠ name) : lookup name (front ++ member :: back) = lookup name (front ++ back) := by
  simp [lookup, List.find?_append, h]

theorem mem_of_lookup (h : lookup name members = some value) : (name, value) ∈ members := by
  obtain ⟨member, hfound, rfl⟩ := Option.map_eq_some_iff.1 h
  have hname : member.1 = name := by simpa using List.find?_some hfound
  rw [← hname]
  exact List.mem_reverse.1 (List.mem_of_find?_eq_some hfound)

theorem lookup_eq_some_iff (hnames : (members.map (·.1)).Nodup) :
    lookup name members = some value ↔ (name, value) ∈ members := by
  refine ⟨mem_of_lookup, fun hmem => ?_⟩
  have hfound : (members.reverse.find? (·.1 = name)).isSome := by
    rw [List.find?_isSome]
    exact ⟨(name, value), List.mem_reverse.2 hmem, by simp⟩
  obtain ⟨found, hlookup⟩ : ∃ found, lookup name members = some found := by
    rw [← Option.isSome_iff_exists, lookup, Option.isSome_map]
    exact hfound
  have hsame := List.inj_on_of_nodup_map hnames (mem_of_lookup hlookup) hmem rfl
  rw [hlookup, (Prod.mk.inj hsame).2]

/-- The order of members does not count where no name is repeated. -/
theorem lookup_eq_of_perm {others : List (String × Json)} (hnames : (members.map (·.1)).Nodup)
    (h : members.Perm others) : lookup name members = lookup name others := by
  have hothers : (others.map (·.1)).Nodup := (h.map _).nodup_iff.1 hnames
  refine Option.ext fun value => ?_
  rw [lookup_eq_some_iff hnames, lookup_eq_some_iff hothers, h.mem_iff]

theorem Record.field_members_eq_ok_iff {place : Nat} :
    (Record.members members).field place name = .ok value ↔ lookup name members = some value := by
  cases h : lookup name members <;>
    simp [field, field?, h, bind, Except.bind, pure, Except.pure, throw, throwThe,
      MonadExceptOf.throw]

theorem Record.field_items_eq_ok_iff {place size : Nat} {values : List Json} :
    (Record.items recordName size values).field place name = .ok value ↔
      values[place]? = some value := by
  cases h : values[place]? <;>
    simp [field, field?, h, bind, Except.bind, pure, Except.pure]

end Json

namespace ParamForm

variable {π : Type}

/-- What is decoded from JSON is restored from its wire form, and decoded again from the JSON that it
is written as. -/
structure Lawful (form : ParamForm π) : Prop where
  restores : ∀ {json typed}, json.Proper → form.ofJson json = .ok typed →
    form.codec.Restores typed
  proper : ∀ {json typed}, json.Proper → form.ofJson json = .ok typed → (form.toJson typed).Proper
  rendered : ∀ {json typed}, json.Proper → form.ofJson json = .ok typed →
    form.ofJson (form.toJson typed) = .ok typed

/-- Wire forms tell apart what is decoded from JSON. -/
theorem Lawful.encode_inj {form : ParamForm π} (h : form.Lawful) {p q : Json} {typed other : π}
    (hp : p.Proper) (hq : q.Proper) (htyped : form.ofJson p = .ok typed)
    (hother : form.ofJson q = .ok other) (heq : form.codec.encode typed = form.codec.encode other) :
    typed = other := by
  have hread := (h.restores hp htyped).read_encode
  rw [heq, (h.restores hq hother).read_encode, Except.ok.injEq] at hread
  exact hread.symm

theorem lawful_none : none.Lawful where
  restores _ _ := fun _ => rfl
  proper _ _ := .object nofun
  rendered _ _ := rfl

/-- What counts is the last member of the name, or the only item. -/
theorem constant_ofJson_eq_ok_iff {form : ParamForm π} {json : Json} {typed : π} :
    (constant form.codec form.ofJson form.toJson).ofJson json = .ok typed ↔
      ∃ value, ((∃ members, json = .object members ∧ Json.lookup "value" members = some value) ∨
        json = .list [value]) ∧ form.ofJson value = .ok typed := by
  constructor
  · intro h
    obtain ⟨record, hrecord, h⟩ := bind_eq_ok_iff.1 h
    obtain ⟨value, hvalue, h⟩ := bind_eq_ok_iff.1 h
    obtain ⟨read, hread, h⟩ := bind_eq_ok_iff.1 h
    obtain ⟨_, hfinish, h⟩ := bind_eq_ok_iff.1 h
    cases h
    refine ⟨value, ?_, hread⟩
    cases json with
    | object members =>
      cases hrecord
      exact .inl ⟨members, rfl, Json.Record.field_members_eq_ok_iff.1 hvalue⟩
    | list items =>
      cases hrecord
      have hfirst := Json.Record.field_items_eq_ok_iff.1 hvalue
      match items, hfirst, hfinish with
      | [item], rfl, _ => exact .inr rfl
    | _ => cases hrecord
  · rintro ⟨value, ⟨members, rfl, hvalue⟩ | rfl, hread⟩
    · exact bind_eq_ok_iff.2 ⟨.members members, rfl, bind_eq_ok_iff.2 ⟨value,
        Json.Record.field_members_eq_ok_iff.2 hvalue, bind_eq_ok_iff.2 ⟨typed, hread, rfl⟩⟩⟩
    · exact bind_eq_ok_iff.2 ⟨.items "ConstantParams" 1 [value], rfl, bind_eq_ok_iff.2 ⟨value,
        Json.Record.field_items_eq_ok_iff.2 rfl, bind_eq_ok_iff.2 ⟨typed, hread, rfl⟩⟩⟩

theorem Lawful.constant {form : ParamForm π} (h : form.Lawful) :
    (constant form.codec form.ofJson form.toJson).Lawful := by
  have hvalue {json : Json} {typed : π} (hjson : json.Proper)
      (htyped : (ParamForm.constant form.codec form.ofJson form.toJson).ofJson json = .ok typed) :
      ∃ value, value.Proper ∧ form.ofJson value = .ok typed := by
    obtain ⟨value, ⟨members, rfl, hlookup⟩ | rfl, hread⟩ := constant_ofJson_eq_ok_iff.1 htyped
    · cases hjson with
      | object hmembers => exact ⟨value, hmembers _ (Json.mem_of_lookup hlookup), hread⟩
    · cases hjson with
      | list hitems => exact ⟨value, hitems value List.mem_cons_self, hread⟩
  constructor
  case restores =>
    intro json typed hjson htyped
    obtain ⟨value, hproper, hread⟩ := hvalue hjson htyped
    exact h.restores hproper hread
  case proper =>
    intro json typed hjson htyped
    obtain ⟨value, hproper, hread⟩ := hvalue hjson htyped
    refine .object fun member hmember => ?_
    rw [List.mem_singleton.1 hmember]
    exact h.proper hproper hread
  case rendered =>
    intro json typed hjson htyped
    obtain ⟨value, hproper, hread⟩ := hvalue hjson htyped
    exact constant_ofJson_eq_ok_iff.2 ⟨form.toJson typed, .inl ⟨_, rfl, rfl⟩,
      h.rendered hproper hread⟩

/-- The double of a number is finite, so it has a number of its own. -/
theorem lawful_double :
    (⟨Wire.Codec.double, Json.asDouble, Json.ofDouble⟩ : ParamForm Double).Lawful := by
  have hfinite {json : Json} {d : Double} (hjson : json.Proper) (hd : json.asDouble = .ok d) :
      Json.ofDouble d = .number (.double d) ∧ d.isFinite := by
    cases hjson with
    | number hn =>
      cases hd
      exact ⟨if_pos hn.toDouble, hn.toDouble⟩
    | _ => cases hd
  constructor
  case restores => exact fun {_ d} _ _ => Wire.Codec.restores_double d
  case proper =>
    intro json d hjson hd
    obtain ⟨heq, hd⟩ := hfinite hjson hd
    dsimp only
    rw [heq]
    refine .number fun other hother => ?_
    cases hother
    exact hd
  case rendered =>
    intro json d hjson hd
    dsimp only
    rw [(hfinite hjson hd).1]
    rfl

theorem lawful_text :
    (⟨Wire.Codec.text, Json.asText, Json.text⟩ : ParamForm String).Lawful := by
  have hsize {json : Json} {s : String} (hjson : json.Proper) (hs : json.asText = .ok s) :
      (Bytes.ofText s).length < 2 ^ 64 := by
    cases hjson with
    | text hsize =>
      cases hs
      exact hsize
    | _ => cases hs
  exact ⟨fun hjson hs => Wire.Codec.restores_text (hsize hjson hs),
    fun hjson hs => .text (hsize hjson hs), fun _ _ => rfl⟩

end ParamForm

namespace Registry

variable {registry : Registry} {className : String}

theorem describe_eq_ok_iff {p : Json} {d : Description} :
    registry.describe className p = .ok d ↔
      ∃ operation typed, registry.operations.get? className = some operation ∧
        operation.form.ofJson p = .ok typed ∧
        d = ⟨className, operation.form.codec.encode typed⟩ := by
  constructor
  · intro h
    rw [describe, withOperation] at h
    split at h
    · rename_i operation hknown
      obtain ⟨params, hparams, h⟩ := bind_eq_ok_iff.1 h
      cases h
      rw [Operation.canonical] at hparams
      split at hparams
      · rename_i typed htyped
        cases hparams
        exact ⟨operation, typed, hknown, htyped, rfl⟩
      · cases hparams
    · cases h
  · rintro ⟨operation, typed, hknown, htyped, rfl⟩
    simp only [describe, withOperation, hknown, Operation.canonical, htyped]
    rfl

theorem builtin_lawful {operation : Operation}
    (h : builtin.operations.get? className = some operation) : operation.form.Lawful := by
  obtain ⟨hmem, -⟩ := mem_of_get?_ofList h
  simp only [List.mem_cons, List.not_mem_nil, or_false] at hmem
  obtain rfl | rfl | rfl | rfl := hmem
  · exact ParamForm.lawful_none
  · exact ParamForm.lawful_double.constant
  · exact ParamForm.lawful_text.constant
  · exact ParamForm.lawful_none

/-- Parameters of built-in operations have a normal form. What is described by any JSON value can be
written as JSON again, and the value written describes the same. It runs with the very parameters
that were decoded. And another value describes the same just if it is one of the same class that is
decoded to the same parameters, however they are spelled; then all guids are the same, and guids are
the same only then, unless the contents that they are digests of collide. -/
theorem builtin_describe_canonical {p : Json} {d : Description} (hp : p.Proper)
    (h : builtin.describe className p = .ok d) :
    ∃ (operation : Operation) (typed : operation.Params),
      builtin.operations.get? className = some operation ∧
      operation.form.ofJson p = .ok typed ∧
      (∃ json, builtin.paramsJson d = .ok json ∧ json.Proper ∧
        builtin.describe className json = .ok d) ∧
      (∀ context, builtin.run d context = operation.execute typed context) ∧
      ∀ otherClass q e, q.Proper → builtin.describe otherClass q = .ok e →
        (d = e ↔ otherClass = className ∧ operation.form.ofJson q = .ok typed) ∧
        ∀ inputs,
          (otherClass = className ∧ operation.form.ofJson q = .ok typed →
            instanceGuid d inputs = instanceGuid e inputs) ∧
          (Sized d inputs → Sized e inputs → instanceGuid d inputs = instanceGuid e inputs →
            Collide (instanceContent d inputs) (instanceContent e inputs) ∨
              otherClass = className ∧ operation.form.ofJson q = .ok typed) := by
  obtain ⟨operation, typed, hknown, htyped, rfl⟩ := describe_eq_ok_iff.1 h
  have hlawful := builtin_lawful hknown
  have hread := (hlawful.restores hp htyped).read_encode
  have hdecoded : operation.typed (operation.form.codec.encode typed) = .ok typed := by
    rw [Operation.typed, hread]
  refine ⟨operation, typed, hknown, htyped, ⟨operation.form.toJson typed, ?_,
    hlawful.proper hp htyped, ?_⟩, fun context => ?_, fun otherClass q e hq he => ?_⟩
  · simp only [paramsJson, withOperation, hknown, hdecoded]
    rfl
  · exact describe_eq_ok_iff.2 ⟨operation, typed, hknown, hlawful.rendered hp htyped, rfl⟩
  · simp only [run, withOperation, hknown, Operation.run, hdecoded]
    rfl
  · obtain ⟨other, typed', hother, htyped', rfl⟩ := describe_eq_ok_iff.1 he
    have hsame : (⟨className, operation.form.codec.encode typed⟩ : Description)
        = ⟨otherClass, other.form.codec.encode typed'⟩ ↔
          otherClass = className ∧ operation.form.ofJson q = .ok typed := by
      constructor
      · intro heq
        rw [Description.mk.injEq] at heq
        obtain ⟨rfl, hencoded⟩ := heq
        rw [hknown, Option.some.injEq] at hother
        subst hother
        rw [hlawful.encode_inj hp hq htyped htyped' hencoded]
        exact ⟨rfl, htyped'⟩
      · rintro ⟨rfl, hsame⟩
        rw [hknown, Option.some.injEq] at hother
        subst hother
        rw [htyped', Except.ok.injEq] at hsame
        rw [hsame]
    refine ⟨hsame, fun inputs => ⟨fun hspelled => ?_, fun hsized hsized' hguid => ?_⟩⟩
    · rw [hsame.2 hspelled]
    · exact (collide_or_eq hguid).imp id fun heq =>
        hsame.1 (hsized.instanceContent_inj hsized' heq).1

/-- An integer among other members, kept as the double one. -/
theorem builtin_describe_canonical_one :
    ∃ (p : Json) (d : Description), p.Proper ∧
      builtin.describe "AddConstantDoubleAttribute" p = .ok d ∧
      d.params = [0, 0, 0, 0, 0, 0, 0xF0, 0x3F] ∧
      ∃ json, builtin.paramsJson d = .ok json ∧
        builtin.describe "AddConstantDoubleAttribute" json = .ok d := by
  let p : Json := .object [("value", .number (.natural 1)), ("note", .null)]
  have hp : p.Proper := by
    refine .object fun member hmember => ?_
    simp only [List.mem_cons, List.not_mem_nil, or_false] at hmember
    obtain rfl | rfl := hmember
    · exact .number nofun
    · exact .null
  have hdescribe : builtin.describe "AddConstantDoubleAttribute" p
      = .ok ⟨"AddConstantDoubleAttribute", [0, 0, 0, 0, 0, 0, 0xF0, 0x3F]⟩ := rfl
  obtain ⟨_, _, -, -, ⟨json, hjson, -, hagain⟩, -⟩ := builtin_describe_canonical hp hdescribe
  exact ⟨p, _, hp, hdescribe, rfl, json, hjson, hagain⟩

/-! ### Spellings -/

/-- Of an object only the member of the name `value` counts, if any, wherever it stands. -/
theorem builtin_describe_object {members others : List (String × Json)}
    (h : Json.lookup "value" members = Json.lookup "value" others) :
    builtin.describe className (.object members) = builtin.describe className (.object others) := by
  have hform {operation : Operation}
      (hknown : builtin.operations.get? className = some operation) :
      operation.form.ofJson (.object members) = operation.form.ofJson (.object others) := by
    have hfield : (Json.Record.members members).field 0 "value"
        = (Json.Record.members others).field 0 "value" := by
      rw [Json.Record.field, Json.Record.field, Json.Record.field?, Json.Record.field?, h]
    obtain ⟨hmem, -⟩ := mem_of_get?_ofList hknown
    simp only [List.mem_cons, List.not_mem_nil, or_false] at hmem
    obtain rfl | rfl | rfl | rfl := hmem
    · rfl
    · exact congrArg (fun read => read >>= fun value => Json.asDouble value >>= fun d =>
        (Json.Record.members members).finish >>= fun _ => pure d) hfield
    · exact congrArg (fun read => read >>= fun value => Json.asText value >>= fun s =>
        (Json.Record.members members).finish >>= fun _ => pure s) hfield
    · rfl
  rw [describe, describe, withOperation, withOperation]
  split
  · rename_i operation hknown
    rw [Operation.canonical, Operation.canonical, hform hknown]
  · rfl

/-- Members of other names change nothing. -/
theorem builtin_describe_unknown {front back : List (String × Json)} {member : String × Json}
    (h : member.1 ≠ "value") : builtin.describe className (.object (front ++ member :: back))
      = builtin.describe className (.object (front ++ back)) :=
  builtin_describe_object (Json.lookup_append_cons_of_ne h)

/-- The order of members changes nothing. -/
theorem builtin_describe_reordered {members others : List (String × Json)}
    (hnames : (members.map (·.1)).Nodup) (h : members.Perm others) :
    builtin.describe className (.object members) = builtin.describe className (.object others) :=
  builtin_describe_object (Json.lookup_eq_of_perm hnames h)

/-- An array of the only field stands for the object. -/
theorem builtin_describe_array (value : Json) (h : className = "AddConstantDoubleAttribute" ∨
      className = "AddConstantStringAttribute") :
    builtin.describe className (.list [value])
      = builtin.describe className (.object [("value", value)]) := by
  obtain rfl | rfl := h <;> rfl

/-- An object with more members and an integer, and an array with a double. -/
example : builtin.describe "AddConstantDoubleAttribute"
      (.object [("value", .number (.natural 1)), ("note", .null)])
    = builtin.describe "AddConstantDoubleAttribute"
      (.list [.number (.double ⟨0x3FF0000000000000⟩)]) := by
  rfl

end Registry

end GraphVault
