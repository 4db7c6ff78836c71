import ParticleFx.Proofs.Json.Order
import ParticleFx.Proofs.Json.RecordFormat
import ParticleFx.Proofs.Number.Widening

namespace ParticleFx.Json

-- A tree that holds a value with its numbers as they are. A single-precision number is held as the
-- double-precision one that it is.
inductive Datum.Held : Datum → Json → Prop
  | null : Held .null .null
  | bool (b : Bool) : Held (.bool b) (.bool b)
  | integer {n : Int} {l : Literal} (h : l.number? = some (.integer n)) :
      Held (.integer n) (.number l)
  | double {x : Float} {l : Literal} (h : l.number? = some (.real x)) : Held (.double x) (.number l)
  | single {x : Float32} {l : Literal} (h : l.number? = some (.real (widen x))) :
      Held (.single x) (.number l)
  | string (s : String) : Held (.string s) (.string (.ok s))
  | list {data : List Datum} {items : List Json} (h : List.Forall₂ Held data items) :
      Held (.list data) (.array (.ofList items))
  | record {parts : List (String × Datum)} {ms : List (String × Json)}
      (h : ∀ name, Option.Rel Held (parts.lookup name) (ms.lookup name)) :
      Held (.record parts) (.object (.ofList ms))

-- The value is read from every tree that holds it.
def Codec.Exact {α : Type} (c : Codec α) (a : α) : Prop :=
  ∀ ⦃j : Json⦄, j.Proper → (c.write a).Held j → ∀ origin, c.read? origin j = some a

theorem exact_natural {n limit : Nat} (hn : n < limit) (name : String) :
    (Codec.natural limit name).Exact n := by
  rintro _ _ (_ | _ | hl) origin
  have hfits : 0 ≤ (n : Int) ∧ (n : Int) < limit := by omega
  simp [Codec.read?, Codec.natural, found, hl, hfits, Except.toOption]

theorem exact_double (x : Float) : Codec.double.Exact x := by
  rintro _ _ (_ | _ | _ | hl) origin
  simp [Codec.read?, Codec.double, found, hl, Except.toOption]

theorem exact_single {x : Float32} (hx : x.isFinite = true) : Codec.single.Exact x := by
  rintro _ _ (_ | _ | _ | _ | hl) origin
  simp [Codec.read?, Codec.single, found, hl, narrow_widen hx, Except.toOption]

theorem exact_boolean (b : Bool) : Codec.boolean.Exact b := by
  rintro _ _ (_ | _) origin
  rfl

theorem Codec.Exact.optional {α : Type} {c : Codec α} {a : Option α} (h : ∀ b ∈ a, c.Exact b)
    (hnull : ∀ b, ¬(c.write b).Held .null) : (Codec.optional c).Exact a := by
  intro j hj hheld origin
  cases a with
  | none =>
      cases hheld
      rfl
  | some b =>
      have hread := congrArg (Option.map some) (h b rfl hj hheld origin)
      rw [Codec.read?, ← toOption_map] at hread
      cases j with
      | null => exact (hnull b hheld).elim
      | _ => exact hread

theorem Codec.Exact.wrapped {α β : Type} {c : Codec α} {d : Codec β} {wrap : α → β} {a : α}
    (h : c.Exact a) (hwrite : d.write (wrap a) = c.write a)
    (hread : ∀ origin j, d.read origin j = (c.read origin j).map wrap) : d.Exact (wrap a) := by
  intro j hj hheld origin
  rw [hwrite] at hheld
  rw [Codec.read?, hread, toOption_map]
  exact congrArg (Option.map wrap) (h hj hheld origin)

theorem lookup_of_mem {parts : List (String × Datum)} (hnames : (parts.map Prod.fst).Nodup)
    {part : String × Datum} (h : part ∈ parts) : parts.lookup part.1 = some part.2 := by
  obtain ⟨before, after, rfl⟩ := List.append_of_mem h
  refine List.lookup_eq_some_iff.mpr ⟨before, after, rfl, ?_⟩
  intro other hother
  rw [List.map_append, List.map_cons, List.nodup_middle, List.nodup_cons] at hnames
  refine bne_iff_ne.mpr fun heq => hnames.1 ?_
  rw [heq]
  exact List.mem_append_left _ (List.mem_map_of_mem hother)

namespace Fields

variable {αs : List Type}

-- Every part is read from the trees that hold it.
def Exact : {αs : List Type} → Fields αs → Row αs → Prop
  | _, .nil, _ => True
  | _, .cons field rest, (a, row) => field.codec.Exact a ∧ rest.Exact row

theorem fill?_held {fields : Fields αs} {row : Row αs} (h : fields.Exact row)
    {find : String → Option Json} (hproper : ∀ name j, find name = some j → j.Proper)
    (hheld : ∀ part ∈ fields.write row, ∃ j, find part.1 = some j ∧ part.2.Held j)
    (origin : Origin) : fields.fill? origin find (noSlots αs) = some row := by
  induction fields with
  | nil => rfl
  | cons field rest ih =>
      obtain ⟨a, row⟩ := row
      obtain ⟨hfirst, hrest⟩ := List.forall_mem_cons.mp hheld
      obtain ⟨j, hj, hvalue⟩ := hfirst
      have ha : field.value? origin none (find field.name) = some a := by
        rw [hj]
        exact h.1 (hproper _ j hj) hvalue origin
      rw [noSlots, fill?, ha, ih h.2 hrest]
      rfl

end Fields

theorem Record.exact_codec {α : Type} {αs : List Type} (r : Record αs) (hstrict : r.strict = false)
    (hnames : r.fields.names.Nodup) {parts : α → Row αs} {build : Row αs → α} {a : α}
    (h : r.fields.Exact (parts a)) (hbuild : build (parts a) = a) :
    (r.codec parts build).Exact a := by
  intro j hj hheld origin
  obtain ⟨ms, rfl, hlookup⟩ : ∃ ms : List (String × Json), j = .object (.ofList ms) ∧
      ∀ name, Option.Rel Datum.Held ((r.fields.write (parts a)).lookup name) (ms.lookup name) := by
    cases hheld with
    | record h => exact ⟨_, rfl, h⟩
  have hvalues := Members.proper_of_mem hj.whole hj.distinct
  have hparts : ∀ part ∈ r.fields.write (parts a), ∃ j, ms.lookup part.1 = some j ∧ part.2.Held j := by
    intro part hpart
    have hrel := hlookup part.1
    rw [lookup_of_mem (by rw [Fields.names_write]; exact hnames) hpart] at hrel
    cases hname : ms.lookup part.1 with
    | none =>
        rw [hname] at hrel
        cases hrel
    | some j =>
        rw [hname] at hrel
        cases hrel with
        | some h => exact ⟨j, rfl, h⟩
  rw [Codec.read?, codec, toOption_map, read_object hstrict hnames origin
    (Members.nodup_of_distinct hj.distinct) fun m hm => (hvalues m hm).whole,
    Fields.fill?_held h (proper_of_lookup hvalues) hparts, Option.map_some, hbuild]

end ParticleFx.Json
