import Mathlib.Data.List.Nodup
import ParticleFx.Json.Record
import ParticleFx.Proofs.Json.Written

namespace ParticleFx.Json

-- How many levels a reader may go down into a value that it takes in whole.
def Origin.room : Origin → Nat
  | .text room => room
  | .tree | .buffered => 128

theorem Origin.lt_room_inner {origin : Origin} {depth : Nat} (h : depth + 1 < origin.room) :
    depth < origin.inner.room := by
  cases origin with
  | text room =>
      simp only [Origin.inner, Origin.room] at h ⊢
      omega
  | tree | buffered =>
      simp only [Origin.inner, Origin.room] at h ⊢
      omega

theorem whole_items {items : List Json} (h : ∀ j ∈ items, j.Whole) : (Items.ofList items).Whole := by
  induction items with
  | nil => trivial
  | cons j rest ih =>
      obtain ⟨hj, hrest⟩ := List.forall_mem_cons.mp h
      exact ⟨hj, ih hrest⟩

theorem whole_members {members : List (String × Json)} (h : ∀ m ∈ members, m.2.Whole) :
    (Members.ofList members).Whole := by
  induction members with
  | nil => trivial
  | cons m rest ih =>
      obtain ⟨hm, hrest⟩ := List.forall_mem_cons.mp h
      exact ⟨hm, ih hrest⟩

theorem absorb_items {items : List Json} {room : Nat} (h : ∀ j ∈ items, j.absorb room = none) :
    (Items.ofList items).absorb room = none := by
  induction items with
  | nil => rfl
  | cons j rest ih =>
      obtain ⟨hj, hrest⟩ := List.forall_mem_cons.mp h
      simp only [Items.ofList, List.foldr_cons, Items.absorb, hj, Option.none_or]
      exact ih hrest

theorem absorb_members {members : List (String × Json)} {room : Nat}
    (h : ∀ m ∈ members, m.2.absorb room = none) : (Members.ofList members).absorb room = none := by
  induction members with
  | nil => rfl
  | cons m rest ih =>
      obtain ⟨hm, hrest⟩ := List.forall_mem_cons.mp h
      simp only [Members.ofList, List.foldr_cons, Members.absorb, hm, Option.none_or]
      exact ih hrest

theorem toItems_eq (data : List Datum) : toItems data = .ofList (data.map Datum.toJson) := by
  induction data with
  | nil => rfl
  | cons d rest ih =>
      rw [toItems, ih]
      rfl

theorem toMembers_eq (data : List (String × Datum)) :
    toMembers data = .ofList (data.map fun (name, d) => (name, d.toJson)) := by
  induction data with
  | nil => rfl
  | cons entry rest ih =>
      rw [toMembers, ih]
      rfl

-- Reading the text of a tree is reading the tree.
theorem Codec.ofText_written {α : Type} (c : Codec α) {j : Json} (hj : j.Whole) :
    c.ofText (String.ofList (written j)) = c.read (.text 128) j := by
  simp only [Codec.ofText, parse_written hj]
  cases c.read (.text 128) j <;> rfl

-- The trees that stand for the values of a codec. The one that the codec writes is among them for
-- every value that a text can hold, and each of them is read as its value.
structure Format {α : Type} (c : Codec α) where
  holds : α → Prop
  forms : α → Json → Prop
  depth : Nat
  written : ∀ {a}, holds a → forms a (c.write a).toJson
  whole : ∀ {a j}, forms a j → j.Whole
  absorbed : ∀ {a j room}, forms a j → depth < room → j.absorb room = none
  reads : ∀ {a j origin}, forms a j → depth < origin.room → c.read origin j = .ok a

namespace Format

variable {α : Type} {c : Codec α}

-- Every form of a value is read back from its text.
def RoundTrips (format : Format c) : Prop :=
  ∀ a, format.holds a →
    c.ofText (c.toText a) = .ok a ∧
    ∀ j, format.forms a j → c.ofText (String.ofList (Json.written j)) = .ok a

theorem ofText_eq (format : Format c) (hdepth : format.depth < 128) {a : α} {j : Json}
    (h : format.forms a j) : c.ofText (String.ofList (Json.written j)) = .ok a := by
  rw [c.ofText_written (format.whole h)]
  exact format.reads h hdepth

theorem roundTrips (format : Format c) (hdepth : format.depth < 128) : format.RoundTrips := by
  intro a ha
  exact ⟨format.ofText_eq hdepth (format.written ha), fun j hj => format.ofText_eq hdepth hj⟩

theorem absorb_number {l : Literal} {n : Number} (h : l.number? = some n) (room : Nat) :
    (Json.number l).absorb room = none := by
  simp [Json.absorb, h]

theorem found_ofInt {n : Nat} (h : n < UInt64.size) : found (.number (.ofInt n)) = .ok (.integer n) := by
  simp [found, Literal.number?_ofInt h]

theorem read_natural {n limit : Nat} (hn : n < limit) (hlimit : limit ≤ UInt64.size) (name : String)
    (origin : Origin) : (Codec.natural limit name).read origin (.number (.ofInt n)) = .ok n := by
  simp only [Codec.natural, found_ofInt (Nat.lt_of_lt_of_le hn hlimit)]
  rw [if_pos (by omega), Int.toNat_natCast]

-- Whole numbers that fit.
def natural (limit : Nat) (hlimit : limit ≤ UInt64.size) (name : String) :
    Format (Codec.natural limit name) where
  holds n := n < limit
  forms n j := n < limit ∧ j = .number (.ofInt n)
  depth := 0
  written h := ⟨h, rfl⟩
  whole := by
    rintro n j ⟨_, rfl⟩
    exact Literal.wellFormed_ofInt n
  absorbed := by
    rintro n j room ⟨hn, rfl⟩ _
    exact absorb_number (Literal.number?_ofInt (Nat.lt_of_lt_of_le hn hlimit)) room
  reads := by
    rintro n j origin ⟨hn, rfl⟩ _
    exact read_natural hn hlimit name origin

def word32 : Format Codec.word32 := natural UInt32.size (by decide) "u32"
def word64 : Format Codec.word64 := natural UInt64.size (Nat.le_refl _) "u64"
def size : Format Codec.size := natural UInt64.size (Nat.le_refl _) "usize"

def byte : Format Codec.byte where
  holds _ := True
  forms n j := j = .number (.ofInt n.toNat)
  depth := 0
  written _ := rfl
  whole := by
    rintro n j rfl
    exact Literal.wellFormed_ofInt n.toNat
  absorbed := by
    rintro n j room rfl _
    have hn := n.toNat_lt
    exact absorb_number (Literal.number?_ofInt (Nat.lt_trans hn (by decide))) room
  reads := by
    rintro n j origin rfl _
    simp only [Codec.byte, read_natural n.toNat_lt (by decide), Except.map]
    rw [Nat.toUInt8_eq, UInt8.ofNat_toNat]

end Format

-- What is written is read as it was.
def Codec.ReadsBack {α : Type} (c : Codec α) (a : α) : Prop :=
  c.ofText (c.toText a) = .ok a

-- A codec that writes literals, or null for what has none, and reads numbers wherever they stand.
structure Codec.Real {α : Type} (c : Codec α) (literal? : α → Option Literal) : Prop where
  write : ∀ a, (c.write a).toJson = numberOrNull (literal? a)
  wellFormed : ∀ {a l}, literal? a = some l → l.WellFormed
  null : ∀ {origin a}, c.read origin .null ≠ .ok a
  number : ∀ {origin l a}, c.read origin (.number l) = .ok a →
    (∃ n, l.number? = some n) ∧ ∀ other, c.read other (.number l) = .ok a

theorem Codec.Real.exists_literal {α : Type} {c : Codec α} {literal? : α → Option Literal}
    (real : c.Real literal?) {a : α} (h : c.ReadsBack a) :
    ∃ l, (c.write a).toJson = .number l ∧ l.WellFormed ∧ (∃ n, l.number? = some n) ∧
      ∀ origin, c.read origin (.number l) = .ok a := by
  have hwrite := real.write a
  rw [Codec.ReadsBack, Codec.toText, Datum.text] at h
  cases hl : literal? a with
  | none =>
      have hwhole : (numberOrNull none).Whole := trivial
      rw [hl] at hwrite
      rw [hwrite, c.ofText_written hwhole] at h
      exact (real.null h).elim
  | some l =>
      have hwhole : (numberOrNull (some l)).Whole := real.wellFormed hl
      rw [hl] at hwrite
      rw [hwrite, c.ofText_written hwhole] at h
      obtain ⟨hnumber, hothers⟩ := real.number h
      exact ⟨l, hwrite, real.wellFormed hl, hnumber, hothers⟩

theorem real_double : Codec.double.Real Literal.ofFloat? where
  write _ := rfl
  wellFormed := Literal.wellFormed_ofFloat?
  null := by nofun
  number := by
    intro origin l x h
    refine ⟨?_, fun _ => h⟩
    cases hn : l.number? with
    | some n => exact ⟨n, rfl⟩
    | none => simp [Codec.double, found, hn] at h

theorem real_single : Codec.single.Real Literal.ofFloat32? where
  write _ := rfl
  wellFormed := Literal.wellFormed_ofFloat32?
  null := by nofun
  number := by
    intro origin l x h
    refine ⟨?_, fun _ => h⟩
    cases hn : l.number? with
    | some n => exact ⟨n, rfl⟩
    | none => simp [Codec.single, found, hn] at h

namespace Format

variable {α : Type} {c : Codec α}

-- Finite numbers that are read back as they are written. The reader scales the digits by one power
-- of ten, which may miss the nearest number, so this is asked of each number and not proved of all.
def real {literal? : α → Option Literal} (finite : α → Bool) (h : c.Real literal?) : Format c where
  holds a := finite a = true ∧ c.ReadsBack a
  forms a j := c.ReadsBack a ∧ j = (c.write a).toJson
  depth := 0
  written h := ⟨h.2, rfl⟩
  whole := by
    rintro a j ⟨ha, rfl⟩
    obtain ⟨l, hwrite, hwell, _⟩ := h.exists_literal ha
    rw [hwrite]
    exact hwell
  absorbed := by
    rintro a j room ⟨ha, rfl⟩ _
    obtain ⟨l, hwrite, _, ⟨n, hn⟩, _⟩ := h.exists_literal ha
    rw [hwrite]
    exact absorb_number hn room
  reads := by
    rintro a j origin ⟨ha, rfl⟩ _
    obtain ⟨l, hwrite, _, _, hread⟩ := h.exists_literal ha
    rw [hwrite]
    exact hread origin

def double : Format Codec.double := real Float.isFinite real_double
def single : Format Codec.single := real Float32.isFinite real_single

def boolean : Format Codec.boolean where
  holds _ := True
  forms b j := j = .bool b
  depth := 0
  written _ := rfl
  whole := by
    rintro b j rfl
    trivial
  absorbed := by
    rintro b j room rfl _
    rfl
  reads := by
    rintro b j origin rfl _
    rfl

-- Null is kept for the value that is not there.
def optional (format : Format c) (hnull : ∀ a, ¬format.forms a .null) : Format (.optional c) where
  holds
    | none => True
    | some a => format.holds a
  forms
    | none, j => j = .null
    | some a, j => format.forms a j
  depth := format.depth
  written := by
    intro a ha
    cases a with
    | none => rfl
    | some a => exact format.written ha
  whole := by
    intro a j h
    cases a with
    | none =>
        subst h
        trivial
    | some a => exact format.whole h
  absorbed := by
    intro a j room h hroom
    cases a with
    | none =>
        subst h
        rfl
    | some a => exact format.absorbed h hroom
  reads := by
    intro a j origin h hroom
    cases a with
    | none =>
        subst h
        rfl
    | some a =>
        have hread := format.reads h hroom
        cases j with
        | null => exact (hnull a h).elim
        | _ => exact congrArg (Except.map some) hread

-- The values of another type that are made of one value each.
def wrapped {β : Type} {d : Codec β} (format : Format c) (wrap : α → β)
    (hwrite : ∀ a, d.write (wrap a) = c.write a)
    (hread : ∀ origin j, d.read origin j = (c.read origin j).map wrap) : Format d where
  holds b := ∃ a, wrap a = b ∧ format.holds a
  forms b j := ∃ a, wrap a = b ∧ format.forms a j
  depth := format.depth
  written := by
    rintro b ⟨a, rfl, ha⟩
    exact ⟨a, rfl, hwrite a ▸ format.written ha⟩
  whole := by
    rintro b j ⟨a, rfl, h⟩
    exact format.whole h
  absorbed := by
    rintro b j room ⟨a, rfl, h⟩ hroom
    exact format.absorbed h hroom
  reads := by
    rintro b j origin ⟨a, rfl, h⟩ hroom
    rw [hread, format.reads h hroom]
    rfl

theorem forall_mem_of_forms (format : Format c) {as : List α} {items : List Json} {p : Json → Prop}
    (h : List.Forall₂ format.forms as items) (hp : ∀ a j, format.forms a j → p j) :
    ∀ j ∈ items, p j := by
  induction h with
  | nil => nofun
  | cons hj _ ih => exact List.forall_mem_cons.mpr ⟨hp _ _ hj, ih⟩

theorem readItems_ofList (format : Format c) {as : List α} {items : List Json} {origin : Origin}
    (h : List.Forall₂ format.forms as items) (hroom : format.depth < origin.room) :
    Codec.readItems c origin (.ofList items) = .ok as := by
  induction h with
  | nil => rfl
  | cons hj _ ih =>
      simp only [Items.ofList, List.foldr_cons, Codec.readItems, format.reads hj hroom, ok_bind]
      rw [← Items.ofList, ih]
      rfl

def list (format : Format c) : Format (.list c) where
  holds as := ∀ a ∈ as, format.holds a
  forms as j := ∃ items, List.Forall₂ format.forms as items ∧ j = .array (.ofList items)
  depth := format.depth + 1
  written := by
    intro as has
    refine ⟨as.map fun a => (c.write a).toJson, ?_, ?_⟩
    · rw [List.forall₂_map_right_iff, List.forall₂_same]
      exact fun a ha => format.written (has a ha)
    · simp only [Codec.list, Datum.toJson, toItems_eq, List.map_map]
      rfl
  whole := by
    rintro as j ⟨items, h, rfl⟩
    exact whole_items (format.forall_mem_of_forms h fun _ _ hj => format.whole hj)
  absorbed := by
    rintro as j room ⟨items, h, rfl⟩ hroom
    rw [Json.absorb, if_neg (by omega)]
    exact absorb_items (format.forall_mem_of_forms h fun _ _ hj => format.absorbed hj (by omega))
  reads := by
    rintro as j origin ⟨items, h, rfl⟩ hroom
    exact format.readItems_ofList h (Origin.lt_room_inner hroom)

end Format

end ParticleFx.Json
