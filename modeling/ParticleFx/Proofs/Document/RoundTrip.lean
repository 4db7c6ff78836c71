import ParticleFx.Document.Scene
import ParticleFx.Proofs.Json.RecordFormat

namespace ParticleFx.Document

open Json

def colorFormat : Format color :=
  .record colorRecord (by decide) (fun _ => rfl) <|
    .cons .byte <| .cons .byte <| .cons .byte <| .cons .byte .nil

def pairFormat (name : String) : Format (pair name) :=
  .record (pairRecord name) (show ["x", "y"].Nodup by decide) (fun _ => rfl) <|
    .cons .double <| .cons .double .nil

def vec2Format : Format vec2 := pairFormat "Vec2"
def pointFormat : Format point := pairFormat "Point"

def fpsFormat : Format fps :=
  .record fpsRecord (by decide) (fun _ => rfl) <| .cons .word32 <| .cons .word32 .nil

def frameRangeFormat : Format frameRange :=
  .record frameRangeRecord (by decide) (fun _ => rfl) <| .cons .word64 <| .cons .word64 .nil

def canvasFormat : Format canvas :=
  .record canvasRecord (by decide) (fun _ => rfl) <| .cons .word32 <| .cons .word32 .nil

def templateFormat : Format template :=
  .record templateRecord (by decide) (fun _ => rfl) <|
    .cons vec2Format <| .cons vec2Format <| .cons vec2Format <| .cons .double <| .cons .double <|
    .cons colorFormat <| .cons .double <| .cons .double <| .cons .double <| .cons .double .nil

def systemConfigFormat : Format systemConfig :=
  .record systemConfigRecord (by decide) (fun _ => rfl) <|
    .cons vec2Format <| .cons .double <| .cons templateFormat .nil

def glowFormat : Format glow :=
  .record glowRecord (by decide) (fun _ => rfl) <| .cons .single <| .cons .word32 .nil

def motionBlurFormat : Format motionBlur :=
  .record motionBlurRecord (by decide) (fun _ => rfl) <| .cons .single .nil

def shakeFormat : Format shake :=
  .record shakeRecord (by decide) (fun _ => rfl) <| .cons .word32 .nil

def glitchFormat : Format glitch :=
  .record glitchRecord (by decide) (fun _ => rfl) <| .cons .single .nil

theorem pointFormat_not_null (v : Vec2) : ¬pointFormat.forms v .null := by
  rintro ⟨members, h, _⟩
  cases h

def radialBlurFormat : Format radialBlur :=
  .record radialBlurRecord (by decide) (fun _ => rfl) <|
    .cons (.optional pointFormat pointFormat_not_null) <| .cons .single <| .cons .boolean .nil

-- The parameters of a request of a known kind.
def paramsCodec (kind : EffectKind) : Codec EffectRequest where
  write := writeParams
  read := readParams kind

def paramsFormat : (kind : EffectKind) → Format (paramsCodec kind)
  | .glow => glowFormat.wrapped .glow (fun _ => rfl) (fun _ _ => rfl)
  | .motionBlur => motionBlurFormat.wrapped .motionBlur (fun _ => rfl) (fun _ _ => rfl)
  | .shake => shakeFormat.wrapped .shake (fun _ => rfl) (fun _ _ => rfl)
  | .glitch => glitchFormat.wrapped .glitch (fun _ => rfl) (fun _ _ => rfl)
  | .radialBlur => radialBlurFormat.wrapped .radialBlur (fun _ => rfl) (fun _ _ => rfl)

-- No parameters go deeper than the center of a radial blur.
theorem depth_params (kind : EffectKind) : (paramsFormat kind).depth ≤ 2 := by
  cases kind <;> decide

def kindTree (kind : EffectKind) : Json := .string (.ok kind.name)

theorem readKind_kindTree (kind : EffectKind) : readKind (kindTree kind) = .ok kind := by
  cases kind <;> rfl

theorem nextPart_kind (value : Json) (rest : Members) :
    nextPart (.cons (.ok "kind") value rest) = .ok (some (.kind value, rest)) := by
  simp [nextPart]

theorem nextPart_params (value : Json) (rest : Members) :
    nextPart (.cons (.ok "params") value rest) = .ok (some (.params value, rest)) := by
  simp [nextPart]

-- The kind of a request and its parameters, either of them first.
inductive RequestForm (r : EffectRequest) : Json → Prop
  | kindFirst {params : Json} (h : (paramsFormat r.kind).forms r params) :
      RequestForm r (.object (.ofList [("kind", kindTree r.kind), ("params", params)]))
  | paramsFirst {params : Json} (h : (paramsFormat r.kind).forms r params) :
      RequestForm r (.object (.ofList [("params", params), ("kind", kindTree r.kind)]))

theorem read_kindFirst {r : EffectRequest} {params : Json} {origin : Origin}
    (h : (paramsFormat r.kind).forms r params) (hroom : 2 < origin.room) :
    readRequestMembers origin (.ofList [("kind", kindTree r.kind), ("params", params)]) = .ok r := by
  have hdepth := depth_params r.kind
  have hparams : readParams r.kind origin params = .ok r :=
    (paramsFormat r.kind).reads h (by omega)
  simp only [Members.ofList, List.foldr_cons, List.foldr_nil, readRequestMembers, nextPart_kind,
    nextPart_params, ok_bind, readKind_kindTree, hparams]
  rfl

-- Parameters that come first are read from where they have been kept.
theorem read_paramsFirst {r : EffectRequest} {params : Json} {origin : Origin}
    (h : (paramsFormat r.kind).forms r params) (hroom : 2 < origin.room) :
    readRequestMembers origin (.ofList [("params", params), ("kind", kindTree r.kind)]) = .ok r := by
  have hdepth := depth_params r.kind
  have habsorb : params.absorb origin.room = none := (paramsFormat r.kind).absorbed h (by omega)
  have hparams : readParams r.kind .buffered params = .ok r :=
    (paramsFormat r.kind).reads h (Nat.lt_of_le_of_lt hdepth (by decide))
  simp only [Members.ofList, List.foldr_cons, List.foldr_nil, readRequestMembers, nextPart_params,
    ok_bind, nextPart_kind, readKind_kindTree, hparams]
  cases origin with
  | text room => rw [show params.absorb room = none from habsorb]; rfl
  | tree | buffered => rw [show params.absorb 128 = none from habsorb]; rfl

def requestFormat : Format request where
  holds r := (paramsFormat r.kind).holds r
  forms := RequestForm
  depth := 3
  written h := .kindFirst ((paramsFormat _).written h)
  whole := by
    rintro r j (h | h)
    · exact ⟨trivial, (paramsFormat r.kind).whole h, trivial⟩
    · exact ⟨(paramsFormat r.kind).whole h, trivial, trivial⟩
  absorbed := by
    intro r j room h hroom
    have hdepth := depth_params r.kind
    have hparams : ∀ params, (paramsFormat r.kind).forms r params → params.absorb (room - 1) = none :=
      fun params h => (paramsFormat r.kind).absorbed h (by omega)
    rcases h with h | h
    · rw [Json.absorb, if_neg (by omega)]
      exact absorb_members (by simp [hparams _ h, kindTree, Json.absorb])
    · rw [Json.absorb, if_neg (by omega)]
      exact absorb_members (by simp [hparams _ h, kindTree, Json.absorb])
  reads := by
    intro r j origin h hroom
    rcases h with h | h
    · exact read_kindFirst h (Origin.lt_room_inner hroom)
    · exact read_paramsFirst h (Origin.lt_room_inner hroom)

def emitterFormat : Format emitter :=
  .record emitterRecord (by decide) (fun _ => rfl) <|
    .cons systemConfigFormat <| .cons vec2Format <| .cons .word64 .nil

def burstFormat : Format burst :=
  .record burstRecord (by decide) (fun _ => rfl) <|
    .cons .word64 <| .cons .size <| .cons .size <| .cons .boolean .nil

def scheduledFormat : Format scheduled :=
  .record scheduledRecord (by decide) (fun _ => rfl) <|
    .cons requestFormat <| .cons frameRangeFormat <| .cons .word64 .nil

theorem scene_build (s : Scene) : { s with seed := s.seed.toNat.toUInt64 } = s := by
  rw [Nat.toUInt64_eq, UInt64.ofNat_toNat]

def sceneFormat : Format scene :=
  .record sceneRecord (by decide) scene_build <|
    .cons canvasFormat <| .cons fpsFormat <| .cons .word64 <| .cons .word64 <| .cons colorFormat <|
    .cons (.list emitterFormat) <| .cons (.list burstFormat) <| .cons (.list scheduledFormat) .nil

-- A document is read back from its text, whatever the order of the members of its objects, and
-- without those that have the values they take when they are left out.
theorem documents_round_trip :
    sceneFormat.RoundTrips ∧ systemConfigFormat.RoundTrips ∧ templateFormat.RoundTrips ∧
      requestFormat.RoundTrips ∧ emitterFormat.RoundTrips ∧ burstFormat.RoundTrips ∧
      scheduledFormat.RoundTrips ∧ frameRangeFormat.RoundTrips ∧ colorFormat.RoundTrips :=
  ⟨sceneFormat.roundTrips (by decide), systemConfigFormat.roundTrips (by decide),
    templateFormat.roundTrips (by decide), requestFormat.roundTrips (by decide),
    emitterFormat.roundTrips (by decide), burstFormat.roundTrips (by decide),
    scheduledFormat.roundTrips (by decide), frameRangeFormat.roundTrips (by decide),
    colorFormat.roundTrips (by decide)⟩

-- A glow of the usual intensity in an otherwise empty scene.
def glowing : Scene where
  canvas := ⟨2, 4⟩
  fps := ⟨30, 1⟩
  duration := 3
  effects := [{ effect := .glow { radius := 7 }, range := ⟨0, 2⟩ }]

theorem holds_glowing : sceneFormat.holds glowing := by
  have h32 {n : Nat} (hn : n < 100) : Format.word32.holds n := Nat.lt_trans hn (by decide)
  have h64 {n : Nat} (hn : n < 100) : Format.word64.holds n := Nat.lt_trans hn (by decide)
  have hcanvas : canvasFormat.holds ⟨2, 4⟩ := ⟨h32 (by decide), h32 (by decide), trivial⟩
  have hfps : fpsFormat.holds ⟨30, 1⟩ := ⟨h32 (by decide), h32 (by decide), trivial⟩
  have hblack : colorFormat.holds .black := ⟨trivial, trivial, trivial, trivial, trivial⟩
  have hhalf : Codec.single.ReadsBack 0.5 := by rfl
  have hglow : requestFormat.holds (.glow { radius := 7 }) :=
    ⟨_, rfl, ⟨by decide, hhalf⟩, h32 (by decide), trivial⟩
  have hrange : frameRangeFormat.holds ⟨0, 2⟩ := ⟨h64 (by decide), h64 (by decide), trivial⟩
  have heffects : (Format.list scheduledFormat).holds glowing.effects :=
    List.forall_mem_singleton.mpr ⟨hglow, hrange, h64 (by decide), trivial⟩
  exact ⟨hcanvas, hfps, h64 (by decide), h64 (by decide), hblack, by nofun, by nofun, heffects,
    trivial⟩

def numberTree (n : Nat) : Json := .number (.ofInt n)

-- Every object backward, and without all that may be left out.
def glowTree : Json :=
  .object (.ofList [("params", .object (.ofList [("radius", numberTree 7)])), ("kind", kindTree .glow)])

def rangeTree : Json := .object (.ofList [("end", numberTree 2), ("start", numberTree 0)])

def glowingTree : Json :=
  .object (.ofList
    [("effects", .array (.ofList [.object (.ofList [("range", rangeTree), ("effect", glowTree)])])),
      ("duration", numberTree 3),
      ("fps", .object (.ofList [("den", numberTree 1), ("num", numberTree 30)])),
      ("canvas", .object (.ofList [("height", numberTree 4), ("width", numberTree 2)]))])

theorem forms_glowing : sceneFormat.forms glowing glowingTree := by
  have h32 {n : Nat} (hn : n < 100) : Format.word32.forms n (numberTree n) :=
    ⟨Nat.lt_trans hn (by decide), rfl⟩
  have h64 {n : Nat} (hn : n < 100) : Format.word64.forms n (numberTree n) :=
    ⟨Nat.lt_trans hn (by decide), rfl⟩
  have hglow : requestFormat.forms (.glow { radius := 7 }) glowTree := by
    refine .paramsFirst ⟨_, rfl, _, rfl, by decide, ?_, ?_⟩
    · simpa [Formats.Tells] using h32 (by decide)
    · simp [Fields.Settled, glowRecord, Fields.optional]
  have hrange : frameRangeFormat.forms ⟨0, 2⟩ rangeTree := by
    refine ⟨_, rfl, by decide, ?_, ?_⟩
    · simpa [Formats.Tells] using ⟨h64 (by decide), h64 (by decide)⟩
    · simp [Fields.Settled, frameRangeRecord, Fields.required]
  have heffects : (Format.list scheduledFormat).forms glowing.effects
      (.array (.ofList [.object (.ofList [("range", rangeTree), ("effect", glowTree)])])) := by
    refine ⟨_, .cons ⟨_, rfl, by decide, ?_, ?_⟩ .nil, rfl⟩
    · simpa [Formats.Tells] using ⟨hrange, hglow⟩
    · simp [Fields.Settled, scheduledRecord, Fields.required, Fields.optional]
  have hfps : fpsFormat.forms ⟨30, 1⟩
      (.object (.ofList [("den", numberTree 1), ("num", numberTree 30)])) := by
    refine ⟨_, rfl, by decide, ?_, ?_⟩
    · simpa [Formats.Tells] using ⟨h32 (by decide), h32 (by decide)⟩
    · simp [Fields.Settled, fpsRecord, Fields.required]
  have hcanvas : canvasFormat.forms ⟨2, 4⟩
      (.object (.ofList [("height", numberTree 4), ("width", numberTree 2)])) := by
    refine ⟨_, rfl, by decide, ?_, ?_⟩
    · simpa [Formats.Tells] using ⟨h32 (by decide), h32 (by decide)⟩
    · simp [Fields.Settled, canvasRecord, Fields.required]
  refine ⟨_, rfl, by decide, ?_, ?_⟩
  · simpa [Formats.Tells] using ⟨heffects, h64 (by decide), hfps, hcanvas⟩
  · simp [Fields.Settled, sceneRecord, Fields.required, Fields.optional, glowing]

def glowingText : String :=
  "\x7b\"effects\":[\x7b\"range\":\x7b\"end\":2,\"start\":0\x7d,\"effect\":\x7b\"params\":\x7b\"radius\":7\x7d," ++
  "\"kind\":\"glow\"\x7d\x7d],\"duration\":3,\"fps\":\x7b\"den\":1,\"num\":30\x7d," ++
  "\"canvas\":\x7b\"height\":4,\"width\":2\x7d\x7d"

theorem documents_round_trip_glowing :
    scene.ofText (scene.toText glowing) = .ok glowing ∧ scene.ofText glowingText = .ok glowing := by
  have htext : String.ofList (written glowingTree) = glowingText := by decide +kernel
  obtain ⟨hcanonical, hforms⟩ := documents_round_trip.1 glowing holds_glowing
  exact ⟨hcanonical, htext ▸ hforms glowingTree forms_glowing⟩

end ParticleFx.Document
