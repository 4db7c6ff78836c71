import ParticleFx.Json.Datum
import ParticleFx.Proofs.Json.Literals

namespace ParticleFx.Json

variable {fuel : Nat} {tail rest : List Char}

-- A control character is written with the two digits that it has to base sixteen.
theorem hexUnit?_control : ∀ n < 32,
    (if n < 16 then ['0'] else []) ++ Nat.toDigits 16 n = [(n / 16).digitChar, (n % 16).digitChar] ∧
      hexUnit? '0' '0' (n / 16).digitChar (n % 16).digitChar = some n := by
  decide

-- A piece that stands for the character by itself.
def Stands (piece : Piece) (c : Char) : Prop :=
  ∀ pieces, joinPieces none (piece :: pieces) = (joinPieces none pieces).map (c :: ·)

theorem stands_char (c : Char) : Stands (.char c) c := fun _ => rfl

theorem stands_control {c : Char} (hc : c.toNat < 32) : Stands (.unit c.toNat) c := by
  intro pieces
  rw [joinPieces.eq_def]
  dsimp only
  rw [if_neg (by omega), if_neg (by omega), Char.ofNat_toNat]

theorem scanString_escape {e c : Char} (hunit : e ≠ 'u') (h : escaped? e = some c)
    (rest : List Char) :
    scanString ('\\' :: e :: rest) = (.char c :: (scanString rest).1, (scanString rest).2) := by
  simp [scanString, hunit, h]

theorem scanString_writtenChar (c : Char) (rest : List Char) :
    ∃ piece, Stands piece c ∧
      scanString (writtenChar c ++ rest) = (piece :: (scanString rest).1, (scanString rest).2) := by
  unfold writtenChar
  split
  · subst c
    exact ⟨_, stands_char _, scanString_escape (by decide) rfl rest⟩
  split
  · subst c
    exact ⟨_, stands_char _, scanString_escape (by decide) rfl rest⟩
  split
  · subst c
    exact ⟨_, stands_char _, scanString_escape (by decide) rfl rest⟩
  split
  · subst c
    exact ⟨_, stands_char _, scanString_escape (by decide) rfl rest⟩
  split
  · subst c
    exact ⟨_, stands_char _, scanString_escape (by decide) rfl rest⟩
  split
  · subst c
    exact ⟨_, stands_char _, scanString_escape (by decide) rfl rest⟩
  split
  · subst c
    exact ⟨_, stands_char _, scanString_escape (by decide) rfl rest⟩
  split
  · rename_i hcontrol
    obtain ⟨hdigits, hunit⟩ := hexUnit?_control c.toNat hcontrol
    refine ⟨_, stands_control hcontrol, ?_⟩
    rw [List.append_assoc ['\\', 'u', '0', '0'], hdigits]
    simp [scanString, hunit]
  · rename_i hquote hslash _ _ _ _ _ hcontrol
    refine ⟨_, stands_char c, ?_⟩
    rw [List.singleton_append, scanString.eq_def]
    split <;> simp_all

theorem scanString_written (cs rest : List Char) :
    ∃ pieces, scanString (cs.flatMap writtenChar ++ '"' :: rest) = (pieces, .ok rest) ∧
      joinPieces none pieces = .ok cs := by
  induction cs with
  | nil => exact ⟨[], by simp [scanString], rfl⟩
  | cons c cs ih =>
      obtain ⟨pieces, hscan, hjoin⟩ := ih
      obtain ⟨piece, hstands, hpiece⟩ :=
        scanString_writtenChar c (cs.flatMap writtenChar ++ '"' :: rest)
      refine ⟨piece :: pieces, ?_, ?_⟩
      · rw [List.flatMap_cons, List.append_assoc, hpiece, hscan]
      · rw [hstands, hjoin]
        rfl

theorem scanText_written (s : String) (rest : List Char) :
    scanText (s.toList.flatMap writtenChar ++ '"' :: rest) = .ok (.ok s, rest) := by
  obtain ⟨pieces, hscan, hjoin⟩ := scanString_written s.toList rest
  simp [scanText, hscan, hjoin, Except.map]

mutual
-- A tree without a trouble anywhere.
def Whole : Json → Prop
  | .number l => l.WellFormed
  | .string (.error _) => False
  | .array items => items.Whole
  | .object members => members.Whole
  | .broken _ => False
  | _ => True

def Items.Whole : Items → Prop
  | .closed => True
  | .cut _ => False
  | .cons item rest => item.Whole ∧ rest.Whole

def Members.Whole : Members → Prop
  | .closed => True
  | .cut _ => False
  | .cons (.error _) _ _ => False
  | .cons (.ok _) value rest => value.Whole ∧ rest.Whole
end

-- What a digit is not.
theorem digit_ne {d : Char} (hd : d.isDigit = true) :
    isBlank d = false ∧ d ≠ ']' ∧ d ≠ '"' ∧ d ≠ '[' ∧ d ≠ '\x7b' ∧ d ≠ 'n' ∧ d ≠ 't' ∧ d ≠ 'f' ∧ d ≠ '-' := by
  have hblank : isBlank d = false := by
    cases h : isBlank d with
    | false => rfl
    | true =>
        simp only [isBlank, Bool.or_eq_true, decide_eq_true_eq] at h
        rcases h with ((rfl | rfl) | rfl) | rfl <;> revert hd <;> decide
  refine ⟨hblank, ?_, ?_, ?_, ?_, ?_, ?_, ?_, ?_⟩ <;> rintro rfl <;> revert hd <;> decide

theorem skipBlank_cons {c : Char} (hc : isBlank c = false) (rest : List Char) :
    skipBlank (c :: rest) = c :: rest := by
  rw [skipBlank, List.dropWhile_cons_of_neg (by simp [hc])]

theorem parseValue_number {l : Literal} (h : l.WellFormed) (hstops : Stops tail) :
    parseValue (fuel + 1) (l.text ++ tail) = (.number l, tail) := by
  have hscan := l.scanNumber_text h hstops
  rw [l.text_eq, List.append_assoc, List.append_assoc, List.append_assoc]
  cases hsign : l.negative with
  | true =>
      rw [hsign] at hscan
      simp [parseValue, skipBlank_cons, isBlank, scannedNumber, hscan, orBroken]
  | false =>
      rw [hsign] at hscan
      obtain ⟨d, ds, hwhole⟩ := List.exists_cons_of_ne_nil h.whole.1
      have hd := h.whole.2 d (by rw [hwhole]; exact List.mem_cons_self)
      obtain ⟨hblank, _, hne⟩ := digit_ne hd
      rw [hwhole, List.cons_append] at hscan ⊢
      simp [parseValue, skipBlank_cons, hblank, hne, hd, scannedNumber, hscan, orBroken]

-- A value starts at once, and not with the end of a list.
theorem exists_head_written {j : Json} (hj : j.Whole) :
    ∃ c cs, written j = c :: cs ∧ isBlank c = false ∧ c ≠ ']' := by
  cases j with
  | null => exact ⟨'n', _, rfl, rfl, by decide⟩
  | bool b => cases b with
    | true => exact ⟨'t', _, rfl, rfl, by decide⟩
    | false => exact ⟨'f', _, rfl, rfl, by decide⟩
  | number l =>
      rw [written, l.text_eq]
      cases l.negative with
      | true => exact ⟨'-', _, rfl, rfl, by decide⟩
      | false =>
          have hl : l.WellFormed := hj
          obtain ⟨d, ds, hwhole⟩ := List.exists_cons_of_ne_nil hl.whole.1
          have hd := hl.whole.2 d (by rw [hwhole]; exact List.mem_cons_self)
          obtain ⟨hblank, hend, _⟩ := digit_ne hd
          rw [hwhole]
          exact ⟨d, _, rfl, hblank, hend⟩
  | string s => cases s with
    | ok s => exact ⟨'"', _, rfl, rfl, by decide⟩
    | error why => cases hj
  | array items => exact ⟨'[', _, rfl, rfl, by decide⟩
  | object members => exact ⟨'\x7b', _, rfl, rfl, by decide⟩
  | broken trouble => cases hj

theorem written_length_pos {j : Json} (hj : j.Whole) : 0 < (written j).length := by
  obtain ⟨c, cs, h, _⟩ := exists_head_written hj
  rw [h]
  exact Nat.succ_pos _

theorem stops_cons {c : Char} (hc : c.isDigit = false ∧ c ≠ '.' ∧ c ≠ 'e' ∧ c ≠ 'E')
    (rest : List Char) : Stops (c :: rest) := by
  rintro d ⟨⟩
  exact hc

theorem stops_writtenItems {items : Items} (h : items.Whole) (tail : List Char) :
    Stops (writtenItems false items ++ tail) := by
  cases items with
  | closed => exact stops_cons (by decide) _
  | cut trouble => cases h
  | cons item rest => exact stops_cons (by decide) _

theorem stops_writtenMembers {members : Members} (h : members.Whole) (tail : List Char) :
    Stops (writtenMembers false members ++ tail) := by
  cases members with
  | closed => exact stops_cons (by decide) _
  | cut trouble => cases h
  | cons key value rest => exact stops_cons (by decide) _

theorem parseItem_written {item : Json} {items : Items} {after : List Char} (hwhole : item.Whole)
    (hitem : parseValue fuel (written item ++ after) = (item, after))
    (hitems : parseItems fuel false after = (items, tail)) (first : Bool) :
    parseItems (fuel + 1) first ((if first then [] else [',']) ++ (written item ++ after)) =
      (.cons item items, tail) := by
  obtain ⟨c, cs, hhead, hblank, hend⟩ := exists_head_written hwhole
  rw [hhead, List.cons_append] at hitem ⊢
  cases first with
  | true => simp [parseItems, skipBlank_cons, hblank, hend, hitem, hitems]
  | false =>
      have hcomma : isBlank ',' = false := rfl
      simp [parseItems, skipBlank_cons, hcomma, hblank, hend, hitem, hitems]

theorem parseMember_written {value : Json} {members : Members} {after : List Char} (name : String)
    (hvalue : parseValue fuel (written value ++ after) = (value, after))
    (hmembers : parseMembers fuel false after = (members, tail)) (first : Bool) :
    parseMembers (fuel + 2) first
        ((if first then [] else [',']) ++ (writtenString name ++ ':' :: (written value ++ after))) =
      (.cons (.ok name) value members, tail) := by
  cases first with
  | true =>
      simp [parseMembers, parseMember, writtenString, scanText_written, skipBlank_cons, isBlank,
        hvalue, hmembers]
  | false =>
      simp [parseMembers, parseMember, writtenString, scanText_written, skipBlank_cons, isBlank,
        hvalue, hmembers]

theorem writtenItems_length_pos {items : Items} (h : items.Whole) (first : Bool) :
    0 < (writtenItems first items).length := by
  cases items with
  | closed => exact Nat.one_pos
  | cut trouble => cases h
  | cons item rest =>
      have hitem := written_length_pos h.1
      simp only [writtenItems, List.length_append]
      omega

-- The text of a tree takes three calls of the parser for a character, and gives back the tree.
mutual
theorem parseValue_written (j : Json) (hj : j.Whole) (fuel : Nat) (tail : List Char)
    (hfuel : 3 * (written j).length ≤ fuel) (hstops : Stops tail) :
    parseValue fuel (written j ++ tail) = (j, tail) := by
  have hpos := written_length_pos hj
  obtain ⟨fuel, rfl⟩ := Nat.exists_eq_succ_of_ne_zero (show fuel ≠ 0 by omega)
  cases j with
  | null => simp [written, parseValue, skipBlank_cons, isBlank, scanWord, scanned, orBroken]
  | bool b => cases b with
    | true => simp [written, parseValue, skipBlank_cons, isBlank, scanWord, scanned, orBroken]
    | false => simp [written, parseValue, skipBlank_cons, isBlank, scanWord, scanned, orBroken]
  | number l => exact parseValue_number hj hstops
  | string s => cases s with
    | ok s =>
        simp [written, writtenText, writtenString, parseValue, skipBlank_cons, isBlank,
          scanText_written, Except.map, orBroken]
    | error why => cases hj
  | array items =>
      rw [written, List.length_cons] at hfuel
      have hitems := parseItems_written items hj fuel true tail (by omega)
      simp [written, parseValue, skipBlank_cons, isBlank, hitems]
  | object members =>
      rw [written, List.length_cons] at hfuel
      have hmembers := parseMembers_written members hj fuel true tail (by omega)
      simp [written, parseValue, skipBlank_cons, isBlank, hmembers]
  | broken trouble => cases hj

theorem parseItems_written (items : Items) (h : items.Whole) (fuel : Nat) (first : Bool)
    (tail : List Char) (hfuel : 3 * (writtenItems first items).length ≤ fuel) :
    parseItems fuel first (writtenItems first items ++ tail) = (items, tail) := by
  cases items with
  | closed =>
      obtain ⟨fuel, rfl⟩ : ∃ n, fuel = n + 1 := ⟨fuel - 1, by simp [writtenItems] at hfuel; omega⟩
      simp [writtenItems, parseItems, skipBlank_cons, isBlank]
  | cut trouble => cases h
  | cons item rest =>
      obtain ⟨hitem, hrest⟩ := h
      have hitempos := written_length_pos hitem
      have hrestpos := writtenItems_length_pos hrest false
      rw [writtenItems, List.length_append, List.length_append] at hfuel
      obtain ⟨fuel, rfl⟩ : ∃ n, fuel = n + 1 := ⟨fuel - 1, by omega⟩
      have hvalue := parseValue_written item hitem fuel (writtenItems false rest ++ tail) (by omega)
        (stops_writtenItems hrest tail)
      have hitems := parseItems_written rest hrest fuel false tail (by omega)
      rw [writtenItems, List.append_assoc, List.append_assoc]
      exact parseItem_written hitem hvalue hitems first

theorem parseMembers_written (members : Members) (h : members.Whole) (fuel : Nat) (first : Bool)
    (tail : List Char) (hfuel : 3 * (writtenMembers first members).length ≤ fuel) :
    parseMembers fuel first (writtenMembers first members ++ tail) = (members, tail) := by
  cases members with
  | closed =>
      obtain ⟨fuel, rfl⟩ : ∃ n, fuel = n + 1 :=
        ⟨fuel - 1, by simp [writtenMembers] at hfuel; omega⟩
      simp [writtenMembers, parseMembers, skipBlank_cons, isBlank]
  | cut trouble => cases h
  | cons key value rest => cases key with
    | error why => cases h
    | ok name =>
        obtain ⟨hvalue, hrest⟩ := h
        rw [writtenMembers, List.length_append, List.length_append, List.length_append,
          List.length_cons] at hfuel
        obtain ⟨fuel, rfl⟩ : ∃ n, fuel = n + 2 := ⟨fuel - 2, by omega⟩
        have hread := parseValue_written value hvalue fuel (writtenMembers false rest ++ tail)
          (by omega) (stops_writtenMembers hrest tail)
        have hmembers := parseMembers_written rest hrest fuel false tail (by omega)
        rw [writtenMembers, List.append_assoc, List.append_assoc, List.append_assoc]
        exact parseMember_written name hread hmembers first
end

theorem parse_written {j : Json} (hj : j.Whole) :
    parse (String.ofList (written j)) = (j, true) := by
  have hvalue := parseValue_written j hj (3 * (written j).length + 3) [] (by omega) stops_nil
  rw [List.append_nil] at hvalue
  simp [parse, hvalue, skipBlank]

end ParticleFx.Json
