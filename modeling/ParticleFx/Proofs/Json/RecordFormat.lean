import ParticleFx.Proofs.Json.Format

namespace ParticleFx.Json

namespace Fields

-- Every part is named, or else it has the value that it takes when it is left out.
def Settled : {αs : List Type} → Fields αs → Row αs → List String → Prop
  | _, .nil, _, _ => True
  | _, .cons field rest, (a, row), names =>
    (field.name ∈ names ∨ field.absent = some a) ∧ rest.Settled row names

-- The slots after the named parts have been met.
def filled : {αs : List Type} → Fields αs → Row αs → List String → Slots αs
  | _, .nil, _, _ => ()
  | _, .cons field rest, (a, row), names =>
    (if field.name ∈ names then some a else none, rest.filled row names)

variable {αs : List Type}

theorem filled_nil (fields : Fields αs) (row : Row αs) : fields.filled row [] = noSlots αs := by
  induction fields with
  | nil => rfl
  | cons field rest ih =>
      obtain ⟨a, row⟩ := row
      rw [filled, ih]
      rfl

theorem filled_cons_of_notMem {fields : Fields αs} {name : String} (h : name ∉ fields.names)
    (row : Row αs) (seen : List String) :
    fields.filled row (name :: seen) = fields.filled row seen := by
  induction fields with
  | nil => rfl
  | cons field rest ih =>
      obtain ⟨a, row⟩ := row
      rw [names, List.mem_cons, not_or] at h
      have hmem : field.name ∈ name :: seen ↔ field.name ∈ seen := by simp [Ne.symm h.1]
      exact Prod.ext (if_congr hmem rfl rfl) (ih h.2 row)

theorem complete_filled {fields : Fields αs} {row : Row αs} {names seen : List String}
    (h : fields.Settled row names) (hseen : names ⊆ seen) :
    fields.complete (fields.filled row seen) = .ok row := by
  induction fields with
  | nil => rfl
  | cons field rest ih =>
      obtain ⟨a, row⟩ := row
      obtain ⟨hpart, hrest⟩ := h
      have hslot : (if field.name ∈ seen then some a else none).or field.absent = some a := by
        split
        · rfl
        · rename_i hmissing
          rcases hpart with hnamed | habsent
          · exact (hmissing (hseen hnamed)).elim
          · rw [habsent]
            rfl
      rw [filled, complete, hslot]
      simp only [ih hrest]
      rfl

theorem settled_of_subset (fields : Fields αs) (row : Row αs) {names : List String}
    (h : fields.names ⊆ names) : fields.Settled row names := by
  induction fields with
  | nil => trivial
  | cons field rest ih =>
      obtain ⟨a, row⟩ := row
      obtain ⟨hname, hrest⟩ := List.cons_subset.mp h
      exact ⟨.inl hname, ih row hrest⟩

theorem names_write (fields : Fields αs) (row : Row αs) :
    (fields.write row).map Prod.fst = fields.names := by
  induction fields with
  | nil => rfl
  | cons field rest ih =>
      obtain ⟨a, row⟩ := row
      rw [write, names, List.map_cons, ih]

end Fields

-- Formats for all parts of a record.
inductive Formats : {αs : List Type} → Fields αs → Type 1
  | nil : Formats .nil
  | cons {α : Type} {αs : List Type} {field : Field α} {rest : Fields αs}
      (format : Format field.codec) (formats : Formats rest) : Formats (.cons field rest)

namespace Formats

def holds : {αs : List Type} → {fields : Fields αs} → Formats fields → Row αs → Prop
  | _, _, .nil, _ => True
  | _, _, .cons format formats, (a, row) => format.holds a ∧ formats.holds row

def depth : {αs : List Type} → {fields : Fields αs} → Formats fields → Nat
  | _, _, .nil => 0
  | _, _, .cons format formats => max format.depth formats.depth

-- The value of a member is a form of the part of its name.
def Tells : {αs : List Type} → {fields : Fields αs} → Formats fields → Row αs → String → Json → Prop
  | _, _, .nil, _, _, _ => False
  | _, .cons field _, .cons format formats, (a, row), name, j =>
    if name = field.name then format.forms a j else formats.Tells row name j

variable {αs : List Type} {fields : Fields αs} {row : Row αs} {name : String} {j : Json}

theorem Tells.whole {formats : Formats fields} (h : formats.Tells row name j) : j.Whole := by
  induction formats with
  | nil => cases h
  | cons format formats ih =>
      obtain ⟨a, row⟩ := row
      simp only [Tells] at h
      split at h
      · exact format.whole h
      · exact ih h

theorem Tells.absorbed {formats : Formats fields} {room : Nat} (h : formats.Tells row name j)
    (hroom : formats.depth < room) : j.absorb room = none := by
  induction formats with
  | nil => cases h
  | cons format formats ih =>
      obtain ⟨a, row⟩ := row
      simp only [depth] at hroom
      simp only [Tells] at h
      split at h
      · exact format.absorbed h (by omega)
      · exact ih h (by omega)

theorem Tells.mem_names {formats : Formats fields} (h : formats.Tells row name j) :
    name ∈ fields.names := by
  induction formats with
  | nil => cases h
  | @cons _ _ field rest format formats ih =>
      obtain ⟨a, row⟩ := row
      simp only [Tells] at h
      split at h
      · rename_i hname
        exact hname ▸ List.mem_cons_self
      · exact List.mem_cons_of_mem _ (ih h)

-- A member that has not been met fills the slot of its part, whatever has been met before.
theorem put_filled {formats : Formats fields} {origin : Origin} {seen : List String}
    (h : formats.Tells row name j) (hnames : fields.names.Nodup) (hseen : name ∉ seen)
    (hroom : formats.depth < origin.room) :
    fields.put origin name j (fields.filled row seen) =
      some (.ok (fields.filled row (name :: seen))) := by
  induction formats with
  | nil => cases h
  | @cons _ _ field rest format formats ih =>
      obtain ⟨a, row⟩ := row
      obtain ⟨hfirst, hrest⟩ := List.nodup_cons.mp hnames
      simp only [depth] at hroom
      simp only [Tells] at h
      simp only [Fields.filled, Fields.put]
      split at h
      · rename_i hname
        subst hname
        rw [if_pos rfl, if_neg hseen, if_pos List.mem_cons_self, format.reads h (by omega),
          Fields.filled_cons_of_notMem hfirst]
        rfl
      · rename_i hname
        have hmem : field.name ∈ name :: seen ↔ field.name ∈ seen := by simp [Ne.symm hname]
        have hslot : (if field.name ∈ name :: seen then some a else none) =
            if field.name ∈ seen then some a else none := if_congr hmem rfl rfl
        rw [if_neg hname, ih h hrest (by omega), hslot]
        rfl

-- Members that each stand for a part, in any order, without those that may be left out.
def Forms (formats : Formats fields) (row : Row αs) (j : Json) : Prop :=
  ∃ members : List (String × Json), j = .object (.ofList members) ∧
    (members.map Prod.fst).Nodup ∧ (∀ m ∈ members, formats.Tells row m.1 m.2) ∧
    fields.Settled row (members.map Prod.fst)

theorem tells_write (formats : Formats fields) (hnames : fields.names.Nodup)
    (h : formats.holds row) : ∀ m ∈ fields.write row, formats.Tells row m.1 m.2.toJson := by
  induction formats with
  | nil => nofun
  | @cons _ _ field rest format formats ih =>
      obtain ⟨a, row⟩ := row
      obtain ⟨hfirst, hrest⟩ := List.nodup_cons.mp hnames
      obtain ⟨ha, hrow⟩ := h
      refine List.forall_mem_cons.mpr ⟨?_, ?_⟩
      · simp only [Tells, if_true]
        exact format.written ha
      · intro m hm
        have htells := ih hrest hrow m hm
        have hne : m.1 ≠ field.name := fun heq => hfirst (heq ▸ htells.mem_names)
        simp only [Tells, if_neg hne]
        exact htells

theorem forms_write (formats : Formats fields) (hnames : fields.names.Nodup)
    (h : formats.holds row) : formats.Forms row (Datum.record (fields.write row)).toJson := by
  have hkeys : ((fields.write row).map fun part => (part.1, part.2.toJson)).map Prod.fst =
      fields.names := by
    rw [List.map_map, ← fields.names_write row]
    rfl
  refine ⟨_, by rw [Datum.toJson, toMembers_eq], ?_, ?_, ?_⟩
  · rw [hkeys]
    exact hnames
  · exact List.forall_mem_map.mpr (formats.tells_write hnames h)
  · rw [hkeys]
    exact fields.settled_of_subset row (List.Subset.refl _)

end Formats

namespace Record

variable {αs : List Type} {r : Record αs} {row : Row αs} {origin : Origin}

-- The members fill their slots one after the other.
theorem readMembers_ofList {formats : Formats r.fields} (hnames : r.fields.names.Nodup)
    (hroom : formats.depth < origin.room) {members : List (String × Json)} {seen : List String}
    (hkeys : (members.map Prod.fst).Nodup) (hseen : ∀ m ∈ members, m.1 ∉ seen)
    (htells : ∀ m ∈ members, formats.Tells row m.1 m.2) :
    r.readMembers origin (.ofList members) (r.fields.filled row seen) =
      .ok (r.fields.filled row ((members.map Prod.fst).reverse ++ seen)) := by
  induction members generalizing seen with
  | nil => rfl
  | cons m rest ih =>
      obtain ⟨hm, hrest⟩ := List.forall_mem_cons.mp htells
      obtain ⟨hnew, hothers⟩ := List.forall_mem_cons.mp hseen
      obtain ⟨hfirst, hnodup⟩ := List.nodup_cons.mp hkeys
      have hput := Formats.put_filled hm hnames hnew hroom
      have hlater : ∀ m' ∈ rest, m'.1 ∉ m.1 :: seen := by
        intro m' hm' hmem
        rcases List.mem_cons.mp hmem with heq | hold
        · exact hfirst (heq ▸ List.mem_map_of_mem hm')
        · exact hothers m' hm' hold
      have hread := ih hnodup hlater hrest
      simp only [Members.ofList, List.foldr_cons, readMembers, hput] at hread ⊢
      rw [hread]
      simp

theorem read_of_forms {formats : Formats r.fields} (hnames : r.fields.names.Nodup) {j : Json}
    (h : formats.Forms row j) (hroom : formats.depth + 1 < origin.room) :
    r.read origin j = .ok row := by
  obtain ⟨members, rfl, hkeys, htells, hsettled⟩ := h
  have hseen : ∀ m ∈ members, m.1 ∉ [] := fun _ _ => List.not_mem_nil
  have hslots := readMembers_ofList hnames (Origin.lt_room_inner hroom) hkeys hseen htells
  rw [Fields.filled_nil, List.append_nil] at hslots
  simp only [read, hslots, ok_bind]
  exact Fields.complete_filled hsettled fun _ => List.mem_reverse.mpr

end Record

-- A record whose parts have formats, for a type that is made of those parts.
def Format.record {α : Type} {αs : List Type} (r : Record αs) {parts : α → Row αs}
    {build : Row αs → α} (hnames : r.fields.names.Nodup) (hbuild : ∀ a, build (parts a) = a)
    (formats : Formats r.fields) : Format (r.codec parts build) where
  holds a := formats.holds (parts a)
  forms a := formats.Forms (parts a)
  depth := formats.depth + 1
  written h := formats.forms_write hnames h
  whole := by
    rintro a j ⟨members, rfl, _, htells, _⟩
    exact whole_members fun m hm => (htells m hm).whole
  absorbed := by
    rintro a j room ⟨members, rfl, _, htells, _⟩ hroom
    rw [Json.absorb, if_neg (by omega)]
    exact absorb_members fun m hm => (htells m hm).absorbed (by omega)
  reads := by
    intro a j origin h hroom
    simp only [Record.codec, Record.read_of_forms hnames h hroom, Except.map]
    rw [hbuild]

end ParticleFx.Json
