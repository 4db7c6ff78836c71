import Mathlib.Data.List.Nodup
import Mathlib.Logic.Function.Basic
import ParticleFx.Json.Record
import ParticleFx.Proofs.Json.Format

namespace ParticleFx.Json

mutual
-- No object has two members of one name.
def Distinct : Json → Prop
  | .array items => items.Distinct
  | .object members => members.Distinct
  | _ => True

def Items.Distinct : Items → Prop
  | .cons item rest => item.Distinct ∧ rest.Distinct
  | _ => True

def Members.Distinct : Members → Prop
  | .cons key value rest => key ∉ rest.toList.map Prod.fst ∧ value.Distinct ∧ rest.Distinct
  | _ => True
end

-- A tree that stands for a value: nothing in it is wrong, and every name has one meaning.
structure Proper (j : Json) : Prop where
  whole : j.Whole
  distinct : j.Distinct

theorem Members.toList_ofList (ms : List (String × Json)) :
    (Members.ofList ms).toList = ms.map fun m => (.ok m.1, m.2) := by
  induction ms with
  | nil => rfl
  | cons m rest ih =>
      rw [List.map_cons, ← ih]
      rfl

theorem Members.exists_ofList (members : Members) (h : members.Whole) :
    ∃ ms : List (String × Json), members = .ofList ms := by
  cases members with
  | closed => exact ⟨[], rfl⟩
  | cut trouble => cases h
  | cons key value rest => cases key with
    | error why => cases h
    | ok name =>
        obtain ⟨ms, rfl⟩ := rest.exists_ofList h.2
        exact ⟨(name, value) :: ms, rfl⟩

theorem Members.nodup_of_distinct {ms : List (String × Json)} (h : (Members.ofList ms).Distinct) :
    (ms.map Prod.fst).Nodup := by
  induction ms with
  | nil => exact List.nodup_nil
  | cons m rest ih =>
      refine List.nodup_cons.mpr ⟨?_, ih h.2.2⟩
      intro hmem
      obtain ⟨m', hm', heq⟩ := List.mem_map.mp hmem
      apply h.1
      rw [← Members.ofList, toList_ofList, List.map_map, ← heq]
      exact List.mem_map_of_mem hm'

theorem Members.proper_of_mem {ms : List (String × Json)} (hwhole : (Members.ofList ms).Whole)
    (hdistinct : (Members.ofList ms).Distinct) : ∀ m ∈ ms, m.2.Proper := by
  induction ms with
  | nil => nofun
  | cons m rest ih =>
      exact List.forall_mem_cons.mpr ⟨⟨hwhole.1, hdistinct.2.1⟩, ih hwhole.2 hdistinct.2.2⟩

mutual
theorem skim_of_whole (j : Json) (h : j.Whole) : j.skim = none := by
  cases j with
  | array items => exact Items.skim_of_whole items h
  | object members => exact Members.skim_of_whole members h
  | broken trouble => cases h
  | _ => rfl

theorem Items.skim_of_whole (items : Items) (h : items.Whole) : items.skim = none := by
  cases items with
  | closed => rfl
  | cut trouble => cases h
  | cons item rest =>
      rw [Items.skim, Json.skim_of_whole item h.1, Items.skim_of_whole rest h.2]
      rfl

theorem Members.skim_of_whole (members : Members) (h : members.Whole) : members.skim = none := by
  cases members with
  | closed => rfl
  | cut trouble => cases h
  | cons key value rest => cases key with
    | error why => cases h
    | ok name =>
        rw [Members.skim, Json.skim_of_whole value h.1, Members.skim_of_whole rest h.2]
        rfl
end

theorem mem_putMember {name : String} {value : Json} {sorted : List (String × Json)}
    {m : String × Json} (h : m ∈ putMember name value sorted) : m = (name, value) ∨ m ∈ sorted := by
  induction sorted with
  | nil => exact .inl (List.mem_singleton.mp h)
  | cons first rest ih =>
      rw [putMember] at h
      split at h
      · exact List.mem_cons.mp h
      split at h
      · exact (List.mem_cons.mp h).imp_right (List.mem_cons_of_mem _)
      · rcases List.mem_cons.mp h with rfl | h
        · exact .inr List.mem_cons_self
        · exact (ih h).imp_right (List.mem_cons_of_mem _)

mutual
theorem whole_ordered (j : Json) (h : j.Whole) : j.ordered.Whole := by
  cases j with
  | array items => exact Items.whole_ordered items h
  | object members => exact whole_members (Members.whole_ordered members h [] (by nofun))
  | broken trouble => cases h
  | _ => exact h

theorem Items.whole_ordered (items : Items) (h : items.Whole) : items.ordered.Whole := by
  cases items with
  | closed => trivial
  | cut trouble => cases h
  | cons item rest => exact ⟨Json.whole_ordered item h.1, Items.whole_ordered rest h.2⟩

theorem Members.whole_ordered (members : Members) (h : members.Whole)
    (sorted : List (String × Json)) (hsorted : ∀ m ∈ sorted, m.2.Whole) :
    ∀ m ∈ members.ordered sorted, m.2.Whole := by
  cases members with
  | closed => exact hsorted
  | cut trouble => cases h
  | cons key value rest => cases key with
    | error why => cases h
    | ok name =>
        refine Members.whole_ordered rest h.2 _ ?_
        intro m hm
        rcases mem_putMember hm with rfl | hm
        · exact Json.whole_ordered value h.1
        · exact hsorted m hm
end

-- A member of a new name goes in without pushing another out.
theorem perm_putMember {name : String} {sorted : List (String × Json)}
    (hnew : name ∉ sorted.map Prod.fst) (value : Json) :
    (putMember name value sorted).Perm ((name, value) :: sorted) := by
  induction sorted with
  | nil => rfl
  | cons first rest ih =>
      rw [List.map_cons, List.mem_cons, not_or] at hnew
      rw [putMember]
      split
      · rfl
      rw [if_neg hnew.1]
      exact ((ih hnew.2).cons first).trans (.swap _ _ _)

-- Putting members in order rearranges them.
theorem perm_ordered {ms sorted : List (String × Json)}
    (hkeys : ((ms ++ sorted).map Prod.fst).Nodup) :
    ((Members.ofList ms).ordered sorted).Perm (ms.map (fun m => (m.1, m.2.ordered)) ++ sorted) := by
  induction ms generalizing sorted with
  | nil => rfl
  | cons m rest ih =>
      have hmoved : ((rest ++ (m.1, m.2.ordered) :: sorted).map Prod.fst).Nodup := by
        rw [List.map_append, List.map_cons, List.nodup_middle, ← List.map_append]
        exact hkeys
      obtain ⟨hfirst, _⟩ := List.nodup_cons.mp hkeys
      have hput : (putMember m.1 m.2.ordered sorted).Perm ((m.1, m.2.ordered) :: sorted) := by
        refine perm_putMember (fun hmem => hfirst ?_) _
        exact List.map_append ▸ List.mem_append_right _ hmem
      have hrest := ih (((hput.append_left rest).map Prod.fst).nodup_iff.mpr hmoved)
      exact hrest.trans ((hput.append_left _).trans List.perm_middle)

theorem lookup_perm {ms ms' : List (String × Json)} (h : ms.Perm ms')
    (hkeys : (ms.map Prod.fst).Nodup) (name : String) : ms.lookup name = ms'.lookup name := by
  induction h with
  | nil => rfl
  | cons m _ ih =>
      rw [List.lookup_cons, List.lookup_cons, ih (List.nodup_cons.mp hkeys).2]
  | swap m m' rest =>
      obtain ⟨key, value⟩ := m
      obtain ⟨key', value'⟩ := m'
      have hne : key' ≠ key := fun heq => (List.nodup_cons.mp hkeys).1 (heq ▸ List.mem_cons_self)
      simp only [List.lookup_cons]
      by_cases hkey : name = key
      · simp [hkey, beq_eq_false_iff_ne.mpr (Ne.symm hne)]
      · simp [beq_eq_false_iff_ne.mpr hkey]
  | trans h _ ih ih' => exact (ih hkeys).trans (ih' ((h.map Prod.fst).nodup_iff.mp hkeys))

theorem lookup_map (f : Json → Json) (ms : List (String × Json)) (name : String) :
    (ms.map fun m => (m.1, f m.2)).lookup name = (ms.lookup name).map f := by
  induction ms with
  | nil => rfl
  | cons m rest ih =>
      rw [List.map_cons, List.lookup_cons, List.lookup_cons, ih]
      split <;> rfl

theorem toOption_map {ε α β : Type} (f : α → β) (x : Except ε α) :
    (x.map f).toOption = x.toOption.map f := by
  cases x <;> rfl

-- What is wrong with a tree does not count, only what is read from it.
abbrev Codec.read? {α : Type} (c : Codec α) (origin : Origin) (j : Json) : Option α :=
  (c.read origin j).toOption

theorem Codec.read?_eq_some_iff {α : Type} (c : Codec α) {origin : Origin} {j : Json} {a : α} :
    c.read? origin j = some a ↔ c.read origin j = .ok a := by
  rw [Codec.read?]
  cases c.read origin j <;> simp [Except.toOption]

-- Neither the order of the members nor where the tree comes from decides what is read.
def Codec.Orderless {α : Type} (c : Codec α) : Prop :=
  ∀ ⦃j : Json⦄, j.Proper → ∀ origin origin', c.read? origin j.ordered = c.read? origin' j

theorem orderless_natural (limit : Nat) (name : String) : (Codec.natural limit name).Orderless := by
  rintro (_ | _ | _ | _ | _ | _ | _) _ _ _ <;> rfl

theorem orderless_double : Codec.double.Orderless := by
  rintro (_ | _ | _ | _ | _ | _ | _) _ _ _ <;> rfl

theorem orderless_single : Codec.single.Orderless := by
  rintro (_ | _ | _ | _ | _ | _ | _) _ _ _ <;> rfl

theorem orderless_boolean : Codec.boolean.Orderless := by
  rintro (_ | _ | _ | _ | _ | _ | _) _ _ _ <;> rfl

theorem Codec.Orderless.optional {α : Type} {c : Codec α} (h : c.Orderless) :
    (Codec.optional c).Orderless := by
  intro j hj origin origin'
  have hread : (c.read? origin j.ordered).map some = (c.read? origin' j).map some := by
    rw [h hj origin origin']
  cases j with
  | null => rfl
  | _ =>
      simp only [Codec.read?, Codec.optional, ordered, toOption_map] at hread ⊢
      exact hread

theorem Codec.Orderless.wrapped {α β : Type} {c : Codec α} {d : Codec β} {wrap : α → β}
    (h : c.Orderless) (hread : ∀ origin j, d.read origin j = (c.read origin j).map wrap) :
    d.Orderless := by
  intro j hj origin origin'
  rw [Codec.read?, Codec.read?, hread, hread, toOption_map, toOption_map]
  exact congrArg (Option.map wrap) (h hj origin origin')

-- The value of a part from what has been met of it and what is found under its name. A part that is
-- met again has no value.
def Field.value? {α : Type} (field : Field α) (origin : Origin) : Option α → Option Json → Option α
  | none, none => field.absent
  | none, some j => field.codec.read? origin j
  | some a, none => some a
  | some _, some _ => none

theorem Field.value?_none {α : Type} (field : Field α) (origin : Origin) (slot : Option α) :
    field.value? origin slot none = slot.or field.absent := by
  cases slot <;> rfl

namespace Fields

variable {αs : List Type}

-- The values of all parts when the members are looked up by name.
def fill? (origin : Origin) (find : String → Option Json) :
    {αs : List Type} → Fields αs → Slots αs → Option (Row αs)
  | _, .nil, _ => some ()
  | _, .cons field rest, (slot, slots) => do
    let a ← field.value? origin slot (find field.name)
    let row ← rest.fill? origin find slots
    return (a, row)

theorem toOption_complete (fields : Fields αs) (origin : Origin) (slots : Slots αs) :
    (fields.complete slots).toOption = fields.fill? origin (fun _ => none) slots := by
  induction fields with
  | nil => rfl
  | cons field rest ih =>
      obtain ⟨slot, slots⟩ := slots
      rw [fill?, ← ih slots, complete, field.value?_none]
      cases slot.or field.absent <;> cases rest.complete slots <;> rfl

-- A part of another name does not notice the member.
theorem fill?_update_of_notMem {fields : Fields αs} {name : String} (h : name ∉ fields.names)
    (origin : Origin) (find : String → Option Json) (found : Option Json) (slots : Slots αs) :
    fields.fill? origin (Function.update find name found) slots = fields.fill? origin find slots := by
  induction fields with
  | nil => rfl
  | cons field rest ih =>
      obtain ⟨slot, slots⟩ := slots
      rw [names, List.mem_cons, not_or] at h
      rw [fill?, fill?, ih h.2, Function.update_of_ne (Ne.symm h.1)]

-- To take in a member first is to look it up later.
theorem fill?_update {fields : Fields αs} (hnames : fields.names.Nodup) (origin : Origin)
    {find : String → Option Json} {name : String} (hfind : find name = none) (j : Json)
    (slots : Slots αs) :
    fields.fill? origin (Function.update find name (some j)) slots =
      match fields.put origin name j slots with
      | none => fields.fill? origin find slots
      | some (.error _) => none
      | some (.ok slots) => fields.fill? origin find slots := by
  induction fields with
  | nil => rfl
  | cons field rest ih =>
      obtain ⟨slot, slots⟩ := slots
      obtain ⟨hfirst, hrest⟩ := List.nodup_cons.mp hnames
      simp only [fill?, put]
      by_cases hname : name = field.name
      · subst hname
        rw [if_pos rfl, Function.update_self, fill?_update_of_notMem hfirst]
        cases slot with
        | some a => rfl
        | none =>
            rw [Field.value?, Codec.read?]
            cases field.codec.read origin j with
            | error e => rfl
            | ok a =>
                simp only [Except.map, fill?, hfind]
                rfl
      · rw [if_neg hname, Function.update_of_ne (Ne.symm hname), ih hrest slots]
        cases rest.put origin name j slots with
        | none => rfl
        | some result => cases result with
          | error e => cases field.value? origin slot (find field.name) <;> rfl
          | ok slots => rfl

-- Nothing in the parts depends on an order.
def Orderless : {αs : List Type} → Fields αs → Prop
  | _, .nil => True
  | _, .cons field rest => field.codec.Orderless ∧ rest.Orderless

theorem fill?_ordered {fields : Fields αs} (h : fields.Orderless) {find : String → Option Json}
    (hfind : ∀ name j, find name = some j → j.Proper) (origin origin' : Origin) (slots : Slots αs) :
    fields.fill? origin (fun name => (find name).map ordered) slots =
      fields.fill? origin' find slots := by
  induction fields with
  | nil => rfl
  | cons field rest ih =>
      obtain ⟨slot, slots⟩ := slots
      obtain ⟨hcodec, hrest⟩ := h
      have hvalue : field.value? origin slot ((find field.name).map ordered) =
          field.value? origin' slot (find field.name) := by
        cases hname : find field.name with
        | none => cases slot <;> rfl
        | some j => cases slot with
          | none => exact hcodec (hfind _ j hname) origin origin'
          | some a => rfl
      rw [fill?, fill?, hvalue, ih hrest slots]

end Fields

namespace Record

variable {αs : List Type} {r : Record αs}

theorem lookup_cons_eq (m : String × Json) (ms : List (String × Json)) :
    ((m :: ms).lookup ·) = Function.update (ms.lookup ·) m.1 (some m.2) := by
  funext name
  obtain ⟨key, value⟩ := m
  rw [List.lookup_cons]
  by_cases hname : name = key
  · simp [hname]
  · simp [hname, beq_eq_false_iff_ne.mpr hname]

-- Members are taken in one after the other, or looked up by name: the record is the same.
theorem readMembers_eq (hstrict : r.strict = false) (hnames : r.fields.names.Nodup)
    (origin : Origin) {ms : List (String × Json)} (hkeys : (ms.map Prod.fst).Nodup)
    (hwhole : ∀ m ∈ ms, m.2.Whole) (slots : Slots αs) :
    (r.readMembers origin (.ofList ms) slots >>= r.fields.complete).toOption =
      r.fields.fill? origin (ms.lookup ·) slots := by
  induction ms generalizing slots with
  | nil => exact r.fields.toOption_complete origin slots
  | cons m rest ih =>
      obtain ⟨hfirst, hothers⟩ := List.nodup_cons.mp hkeys
      obtain ⟨hm, hrest⟩ := List.forall_mem_cons.mp hwhole
      have hmissing : rest.lookup m.1 = none := by
        rw [List.lookup_eq_none_iff]
        intro m' hm'
        exact bne_iff_ne.mpr fun heq => hfirst (heq ▸ List.mem_map_of_mem hm')
      rw [lookup_cons_eq, Fields.fill?_update hnames origin hmissing]
      simp only [Members.ofList, List.foldr_cons, readMembers, hstrict, skim_of_whole m.2 hm]
      cases r.fields.put origin m.1 m.2 slots with
      | none => exact ih hothers hrest slots
      | some result => cases result with
        | error e => rfl
        | ok slots => exact ih hothers hrest slots

theorem read_object (hstrict : r.strict = false) (hnames : r.fields.names.Nodup)
    (origin : Origin) {ms : List (String × Json)} (hkeys : (ms.map Prod.fst).Nodup)
    (hwhole : ∀ m ∈ ms, m.2.Whole) :
    (r.read origin (.object (.ofList ms))).toOption =
      r.fields.fill? origin.inner (ms.lookup ·) (Fields.noSlots αs) :=
  readMembers_eq hstrict hnames origin.inner hkeys hwhole (Fields.noSlots αs)

theorem proper_of_lookup {ms : List (String × Json)} (h : ∀ m ∈ ms, m.2.Proper) (name : String)
    (j : Json) (hname : ms.lookup name = some j) : j.Proper := by
  obtain ⟨before, after, rfl, _⟩ := List.lookup_eq_some_iff.mp hname
  exact h (name, j) (by simp)

theorem toOption_read_object (hstrict : r.strict = false) (hnames : r.fields.names.Nodup)
    (hfields : r.fields.Orderless) {members : Members} (h : (Json.object members).Proper)
    (origin origin' : Origin) :
    (r.read origin (Json.object members).ordered).toOption =
      (r.read origin' (.object members)).toOption := by
  obtain ⟨ms, rfl⟩ := members.exists_ofList h.whole
  have hkeys := Members.nodup_of_distinct h.distinct
  have hvalues := Members.proper_of_mem h.whole h.distinct
  have hperm : ((Members.ofList ms).ordered []).Perm (ms.map fun m => (m.1, m.2.ordered)) := by
    simpa using @perm_ordered ms [] (by simpa using hkeys)
  have hkeys' : (((Members.ofList ms).ordered []).map Prod.fst).Nodup := by
    rw [(hperm.map Prod.fst).nodup_iff, List.map_map]
    exact hkeys
  have hwhole' := (Members.ofList ms).whole_ordered h.whole [] (by nofun)
  have hfind : (((Members.ofList ms).ordered []).lookup ·) =
      fun name => (ms.lookup name).map ordered := by
    funext name
    rw [lookup_perm hperm hkeys', lookup_map]
  rw [ordered, read_object hstrict hnames origin hkeys' hwhole', hfind,
    read_object hstrict hnames origin' hkeys fun m hm => (hvalues m hm).whole]
  exact Fields.fill?_ordered hfields (proper_of_lookup hvalues) _ _ _

theorem toOption_readItems_cons {α : Type} (field : Field α) (fields : Fields αs) (origin : Origin)
    (total : Nat) (tooShort : Nat → DecodeError) (index : Nat) (item : Json) (rest : Items) :
    (readItems origin total tooShort index (.cons field fields) (.cons item rest)).toOption =
      (field.codec.read? origin item).bind fun a =>
        (readItems origin total tooShort (index + 1) fields rest).toOption.map (Prod.mk a) := by
  rw [readItems, Codec.read?]
  cases field.codec.read origin item with
  | error e => rfl
  | ok a => cases readItems origin total tooShort (index + 1) fields rest <;> rfl

theorem toOption_readItems_closed {α : Type} (field : Field α) (fields : Fields αs)
    (origin : Origin) (total : Nat) (tooShort : Nat → DecodeError) (index : Nat) :
    (readItems origin total tooShort index (.cons field fields) .closed).toOption =
      field.absent.bind fun a =>
        (readItems origin total tooShort (index + 1) fields .closed).toOption.map (Prod.mk a) := by
  rw [readItems]
  cases field.absent with
  | none => rfl
  | some a => cases readItems origin total tooShort (index + 1) fields .closed <;> rfl

theorem toOption_readItems {fields : Fields αs} (h : fields.Orderless) (origin origin' : Origin)
    (total total' : Nat) (tooShort tooShort' : Nat → DecodeError) (index : Nat) {items : Items}
    (hwhole : items.Whole) (hdistinct : items.Distinct) :
    (readItems origin total tooShort index fields items.ordered).toOption =
      (readItems origin' total' tooShort' index fields items).toOption := by
  induction fields generalizing index items with
  | nil => cases items with
    | closed => rfl
    | cut trouble => cases hwhole
    -- Where the list comes from decides only what is said about an item too many.
    | cons item rest => cases origin <;> cases origin' <;> rfl
  | cons field fields ih => cases items with
    | closed =>
        have hrest := ih h.2 (index + 1) hwhole hdistinct
        rw [Items.ordered] at hrest ⊢
        rw [toOption_readItems_closed, toOption_readItems_closed, hrest]
    | cut trouble => cases hwhole
    | cons item rest =>
        have hitem := h.1 ⟨hwhole.1, hdistinct.1⟩ origin origin'
        have hrest := ih h.2 (index + 1) hwhole.2 hdistinct.2
        rw [Items.ordered, toOption_readItems_cons, toOption_readItems_cons, hitem, hrest]

theorem orderless_codec {α : Type} (r : Record αs) (hstrict : r.strict = false)
    (hnames : r.fields.names.Nodup) (hfields : r.fields.Orderless) (parts : α → Row αs)
    (build : Row αs → α) :
    (r.codec parts build).Orderless := by
  intro j hj origin origin'
  have hread : (r.read origin j.ordered).toOption = (r.read origin' j).toOption := by
    cases j with
    | object members => exact toOption_read_object hstrict hnames hfields hj origin origin'
    | array items => exact toOption_readItems hfields _ _ _ _ _ _ 0 hj.whole hj.distinct
    | _ => rfl
  rw [Codec.read?, Codec.read?, codec, toOption_map, toOption_map, hread]

end Record

end ParticleFx.Json
