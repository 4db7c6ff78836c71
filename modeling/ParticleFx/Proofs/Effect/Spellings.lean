import ParticleFx.Effect.Spelling
import ParticleFx.Proofs.Action
import ParticleFx.Proofs.Document.RoundTrip
import ParticleFx.Proofs.Json.Exact
import ParticleFx.Proofs.Scene.Validity

namespace ParticleFx.Document

open Json

theorem orderless_glow : glow.Orderless :=
  glowRecord.orderless_codec rfl (by decide) ⟨orderless_single, orderless_natural _ _, trivial⟩ _ _

theorem orderless_motionBlur : motionBlur.Orderless :=
  motionBlurRecord.orderless_codec rfl (by decide) ⟨orderless_single, trivial⟩ _ _

theorem orderless_shake : shake.Orderless :=
  shakeRecord.orderless_codec rfl (by decide) ⟨orderless_natural _ _, trivial⟩ _ _

theorem orderless_glitch : glitch.Orderless :=
  glitchRecord.orderless_codec rfl (by decide) ⟨orderless_single, trivial⟩ _ _

theorem orderless_point : point.Orderless :=
  (pairRecord "Point").orderless_codec rfl (by decide)
    ⟨orderless_double, orderless_double, trivial⟩ _ _

theorem orderless_radialBlur : radialBlur.Orderless :=
  radialBlurRecord.orderless_codec rfl (by decide)
    ⟨orderless_point.optional, orderless_single, orderless_boolean, trivial⟩ _ _

theorem orderless_params (kind : EffectKind) : (paramsCodec kind).Orderless := by
  cases kind with
  | glow => exact orderless_glow.wrapped fun _ _ => rfl
  | motionBlur => exact orderless_motionBlur.wrapped fun _ _ => rfl
  | shake => exact orderless_shake.wrapped fun _ _ => rfl
  | glitch => exact orderless_glitch.wrapped fun _ _ => rfl
  | radialBlur => exact orderless_radialBlur.wrapped fun _ _ => rfl

-- Whole numbers of 32 bits.
def InRange : EffectRequest → Prop
  | .glow p => p.radius < UInt32.size
  | .shake p => p.intensity < UInt32.size
  | _ => True

theorem exact_glow {p : GlowParams} (hintensity : p.intensity.isFinite = true)
    (hradius : p.radius < UInt32.size) : glow.Exact p :=
  glowRecord.exact_codec rfl (by decide)
    ⟨exact_single hintensity, exact_natural hradius _, trivial⟩ rfl

theorem exact_motionBlur {p : MotionBlurParams} (hstrength : p.strength.isFinite = true) :
    motionBlur.Exact p :=
  motionBlurRecord.exact_codec rfl (by decide) ⟨exact_single hstrength, trivial⟩ rfl

theorem exact_shake {p : ShakeParams} (hintensity : p.intensity < UInt32.size) : shake.Exact p :=
  shakeRecord.exact_codec rfl (by decide) ⟨exact_natural hintensity _, trivial⟩ rfl

theorem exact_glitch {p : GlitchParams} (hintensity : p.intensity.isFinite = true) :
    glitch.Exact p :=
  glitchRecord.exact_codec rfl (by decide) ⟨exact_single hintensity, trivial⟩ rfl

theorem exact_point (v : Vec2) : point.Exact v :=
  (pairRecord "Point").exact_codec rfl (by decide) ⟨exact_double v.x, exact_double v.y, trivial⟩ rfl

theorem exact_radialBlur {p : RadialBlurParams} (hstrength : p.strength.isFinite = true) :
    radialBlur.Exact p :=
  radialBlurRecord.exact_codec rfl (by decide)
    ⟨.optional (fun v _ => exact_point v) (by nofun), exact_single hstrength, exact_boolean p.masked,
      trivial⟩ rfl

theorem isFinite_of_finite {name : String} {x : Float32}
    (h : EffectRequest.finite name x = .ok ()) : x.isFinite = true := by
  rw [EffectRequest.finite] at h
  split at h
  · assumption
  · cases h

-- A request that passes its checks can be read from whatever holds its parameters.
theorem exact_params {r : EffectRequest} (hvalid : r.validate = .ok ()) (hrange : InRange r) :
    (paramsCodec r.kind).Exact r := by
  cases r with
  | glow p =>
      have hfinite := isFinite_of_finite (andThen_eq_ok_iff.mp hvalid).1
      exact (exact_glow hfinite hrange).wrapped rfl fun _ _ => rfl
  | motionBlur p =>
      have hfinite := isFinite_of_finite (andThen_eq_ok_iff.mp hvalid).1
      exact (exact_motionBlur hfinite).wrapped rfl fun _ _ => rfl
  | shake p => exact (exact_shake hrange).wrapped rfl fun _ _ => rfl
  | glitch p =>
      have hfinite := isFinite_of_finite (andThen_eq_ok_iff.mp hvalid).1
      exact (exact_glitch hfinite).wrapped rfl fun _ _ => rfl
  | radialBlur p =>
      have hfinite := isFinite_of_finite (andThen_eq_ok_iff.mp hvalid).1
      exact (exact_radialBlur hfinite).wrapped rfl fun _ _ => rfl

theorem distinct_numberOrNull (l : Option Literal) : (numberOrNull l).Distinct := by
  cases l <;> trivial

-- The parts of a record have different names, and nothing in them has names but a center.
theorem distinct_params (r : EffectRequest) : (writeParams r).toJson.Distinct := by
  cases r with
  | glow p | motionBlur p | shake p | glitch p =>
      simp [writeParams, glow, motionBlur, shake, glitch, Record.codec, glowRecord, motionBlurRecord,
        shakeRecord, glitchRecord, Fields.optional, Fields.write, Codec.single, Codec.word32,
        Codec.natural, Datum.toJson, toMembers, Distinct, Members.Distinct, Members.toList,
        distinct_numberOrNull]
  | radialBlur p =>
      have hcenter : ((Codec.optional point).write p.center).toJson.Distinct := by
        cases p.center with
        | none => trivial
        | some v =>
            simp [Codec.optional, point, pair, Record.codec, pairRecord, Fields.required, Fields.write,
              Codec.double, Datum.toJson, toMembers, Distinct, Members.Distinct, Members.toList,
              distinct_numberOrNull]
      simp [writeParams, radialBlur, Record.codec, radialBlurRecord, Fields.optional, Fields.write,
        Codec.single, Codec.boolean, Datum.toJson, toMembers, Distinct, Members.Distinct,
        Members.toList, distinct_numberOrNull, hcenter]

-- The kind of a request, and parameters.
def taggedTree (kind : EffectKind) (params : Json) : Json :=
  .object (.ofList [("kind", kindTree kind), ("params", params)])

theorem read_tagged (kind : EffectKind) (params : Json) (origin : Origin) :
    request.read origin (taggedTree kind params) = readParams kind origin.inner params := by
  simp only [request, taggedTree, Members.ofList, List.foldr_cons, List.foldr_nil,
    readRequestMembers, nextPart_kind, nextPart_params, ok_bind, readKind_kindTree]
  cases readParams kind origin.inner params <;> rfl

theorem ofText_tagged (kind : EffectKind) {params : Json} (h : params.Whole) :
    request.ofText (String.ofList (written (taggedTree kind params))) =
      readParams kind (.text 127) params := by
  have hwhole : (taggedTree kind params).Whole := ⟨trivial, h, trivial⟩
  rw [request.ofText_written hwhole, read_tagged]
  rfl

end ParticleFx.Document

namespace ParticleFx.EffectKind

open Json

-- The name of a kind without what does not count in it.
def plain (k : EffectKind) : List Char :=
  k.name.toList.filter (· ≠ '_')

-- Blanks around it, dashes, underscores and the case of letters set aside, the text names the kind.
def Spells (s : String) (k : EffectKind) : Prop :=
  normalize s.toList = k.plain

instance (s : String) (k : EffectKind) : Decidable (Spells s k) :=
  inferInstanceAs (Decidable (normalize s.toList = k.plain))

theorem normalize_name (k : EffectKind) : normalize k.name.toList = k.plain := by
  cases k <;> decide

theorem plain_ne_nil (k : EffectKind) : k.plain ≠ [] := by
  cases k <;> decide

variable {s : String} {k : EffectKind} {p : Json} {r : EffectRequest}

theorem ofSpelling?_eq_some (h : Spells s k) : ofSpelling? s = some k := by
  rw [ofSpelling?, show normalize s.toList = k.plain from h]
  cases k <;> decide

theorem ofSpelling?_eq_none (h : ∀ k, ¬Spells s k) : ofSpelling? s = none := by
  rw [ofSpelling?, List.find?_eq_none]
  intro k _ heq
  rw [normalize_name] at heq
  exact h k (eq_of_beq heq).symm

-- The request that the parameters ask for, before it is checked.
def asked (s : String) (k : EffectKind) (p : Json) : Except Fault EffectRequest :=
  match p with
  | .null => .ok (request.defaults k)
  | _ => (Document.readParams k .tree p.ordered).mapError (.badParams s)

theorem request_eq (hnamed : normalize s.toList ≠ []) (hkind : ofSpelling? s = some k) :
    request s p = asked s k p >>= fun r => r.validate >>= fun _ => .ok r := by
  rw [request, if_neg hnamed, hkind]
  cases p with
  | null => rfl
  | _ =>
      simp only [asked]
      cases Document.readParams k .tree _ <;> rfl

theorem request_eq_ok_iff (hs : Spells s k) (hp : p ≠ .null) :
    request s p = .ok r ↔
      Document.readParams k .tree p.ordered = .ok r ∧ r.validate = .ok () := by
  have hnamed : normalize s.toList ≠ [] := by
    rw [show normalize s.toList = k.plain from hs]
    exact plain_ne_nil k
  have hasked : asked s k p = (Document.readParams k .tree p.ordered).mapError (.badParams s) := by
    cases p with
    | null => exact (hp rfl).elim
    | _ => rfl
  rw [request_eq hnamed (ofSpelling?_eq_some hs), hasked, bind_eq_ok_iff]
  cases Document.readParams k .tree p.ordered with
  | error why => simp [Except.mapError]
  | ok r' =>
      simp only [Except.mapError, Except.ok.injEq]
      constructor
      · rintro ⟨_, rfl, h⟩
        obtain ⟨_, hvalid, h⟩ := bind_eq_ok_iff.mp h
        cases h
        exact ⟨rfl, hvalid⟩
      · rintro ⟨rfl, hvalid⟩
        exact ⟨r', rfl, bind_eq_ok_iff.mpr ⟨(), hvalid, rfl⟩⟩

theorem validate_of_request (h : request s p = .ok r) : r.validate = .ok () := by
  by_cases hnamed : normalize s.toList = []
  · rw [request, if_pos hnamed] at h
    cases h
  cases hkind : ofSpelling? s with
  | none =>
      rw [request, if_neg hnamed, hkind] at h
      cases h
  | some k =>
      rw [request_eq hnamed hkind] at h
      obtain ⟨r', _, h⟩ := bind_eq_ok_iff.mp h
      obtain ⟨_, hvalid, h⟩ := bind_eq_ok_iff.mp h
      cases h
      exact hvalid

theorem readParams_eq_ok_iff (hp : p.Proper) (k : EffectKind) (r : EffectRequest)
    (origin : Origin) :
    Document.readParams k .tree p.ordered = .ok r ↔ Document.readParams k origin p = .ok r := by
  have hread := Document.orderless_params k hp .tree origin
  have htree : _ ↔ Document.readParams k .tree p.ordered = .ok r :=
    (Document.paramsCodec k).read?_eq_some_iff
  have hother : _ ↔ Document.readParams k origin p = .ok r :=
    (Document.paramsCodec k).read?_eq_some_iff
  rw [← htree, hread, hother]

theorem request_eq_ok_iff_read (hs : Spells s k) (hp : p.Proper) (hnull : p ≠ .null)
    (origin : Origin) :
    request s p = .ok r ↔ Document.readParams k origin p = .ok r ∧ r.validate = .ok () := by
  rw [request_eq_ok_iff hs hnull, readParams_eq_ok_iff hp k r origin]

theorem request_of_held (hs : Spells s r.kind) (hvalid : r.validate = .ok ())
    (hrange : Document.InRange r) (hp : p.Proper) (hheld : (Document.writeParams r).Held p) :
    request s p = .ok r := by
  have hnull : p ≠ .null := by
    rintro rfl
    cases r <;> cases hheld
  have hread := Document.exact_params hvalid hrange hp hheld .tree
  rw [Codec.read?_eq_some_iff] at hread
  exact (request_eq_ok_iff_read hs hp hnull .tree).mpr ⟨hread, hvalid⟩

theorem request_of_written (hs : Spells s r.kind) (hvalid : r.validate = .ok ())
    (hholds : (Document.paramsFormat r.kind).holds r) :
    request s (Document.writeParams r).toJson = .ok r := by
  have hforms := (Document.paramsFormat r.kind).written hholds
  have hproper : (Document.writeParams r).toJson.Proper :=
    ⟨(Document.paramsFormat r.kind).whole hforms, Document.distinct_params r⟩
  have hdepth := Document.depth_params r.kind
  have hread : Document.readParams r.kind .tree (Document.writeParams r).toJson = .ok r :=
    (Document.paramsFormat r.kind).reads hforms (Nat.lt_of_le_of_lt hdepth (by decide))
  have hnull : (Document.writeParams r).toJson ≠ .null := by cases r <;> nofun
  exact (request_eq_ok_iff_read hs hproper hnull .tree).mpr ⟨hread, hvalid⟩

-- However its kind is spelled, a request is made from the parameters that make one of the tagged
-- form, and no other text names a kind.
theorem spellings_agree :
    (∀ s k p, Spells s k → p.Proper → p ≠ .null → ∀ r,
      (request s p = .ok r ↔
        Document.request.ofText (String.ofList (written (Document.taggedTree k p))) = .ok r ∧
          r.validate = .ok ()) ∧
      ∀ origin, request s p = .ok r ↔
        Document.request.read origin (Document.taggedTree k p) = .ok r ∧ r.validate = .ok ()) ∧
    (∀ s r, Spells s r.kind → r.validate = .ok () → Document.InRange r →
      (∀ p, p.Proper → (Document.writeParams r).Held p → request s p = .ok r) ∧
      ((Document.paramsFormat r.kind).holds r →
        request s (Document.writeParams r).toJson = .ok r)) ∧
    (∀ s p r, request s p = .ok r → r.validate = .ok ()) ∧
    ∀ s p, normalize s.toList ≠ [] → (∀ k, ¬Spells s k) →
      request s p = .error (.unsupportedKind (Text.trim s)) := by
  refine ⟨?_, ?_, fun s p r => validate_of_request, ?_⟩
  · intro s k p hs hp hnull r
    refine ⟨?_, fun origin => ?_⟩
    · rw [Document.ofText_tagged k hp.whole]
      exact request_eq_ok_iff_read hs hp hnull _
    · rw [Document.read_tagged]
      exact request_eq_ok_iff_read hs hp hnull _
  · intro s r hs hvalid hrange
    exact ⟨fun p => request_of_held hs hvalid hrange, request_of_written hs hvalid⟩
  · intro s p hnamed hother
    rw [request, if_neg hnamed, ofSpelling?_eq_none hother]

-- A center as a list, a strength without a point, and something that is no parameter.
def tilted : Json :=
  .object (.ofList [("strength", .number (.ofInt 2)), ("tilt", .null),
    ("center", .array (.ofList [.number (.ofInt 1), .number (.ofInt 3)]))])

def half : Literal := ⟨false, ['0'], ['5'], none⟩

-- The parameters of a glow in the order of their names turned around.
def dim : Json :=
  .object (.ofList [("radius", .number (.ofInt 7)), ("intensity", .number half)])

theorem proper_tilted : tilted.Proper where
  whole := ⟨Literal.wellFormed_ofInt 2, trivial,
    ⟨Literal.wellFormed_ofInt 1, Literal.wellFormed_ofInt 3, trivial⟩, trivial⟩
  distinct := ⟨by simp [Members.toList], trivial, by simp [Members.toList], trivial,
    by simp [Members.toList], ⟨trivial, trivial, trivial⟩, trivial⟩

theorem wellFormed_half : half.WellFormed where
  whole := ⟨by nofun, List.forall_mem_singleton.mpr rfl⟩
  leading _ := Nat.le_refl 1
  fraction := List.forall_mem_singleton.mpr rfl
  exponent := by nofun

theorem proper_dim : dim.Proper where
  whole := ⟨Literal.wellFormed_ofInt 7, wellFormed_half, trivial⟩
  distinct := ⟨by simp [Members.toList], trivial, by simp [Members.toList], trivial, trivial⟩

theorem held_dim : (Document.writeParams (.glow { radius := 7 })).Held dim := by
  refine .record fun name => ?_
  by_cases hradius : name = "radius"
  · subst hradius
    exact .some (.integer (by decide))
  by_cases hintensity : name = "intensity"
  · subst hintensity
    exact .some (.single (by decide +kernel))
  · change Option.Rel _ ([("intensity", Datum.single 0.5), ("radius", .integer 7)].lookup name)
      ([("radius", Json.number (.ofInt 7)), ("intensity", .number half)].lookup name)
    simp only [List.lookup_cons, beq_eq_false_iff_ne.mpr hradius, beq_eq_false_iff_ne.mpr hintensity,
      List.lookup_nil]
    exact .none

theorem spellings_agree_loosely :
    (request " Radial-BLUR\t" tilted = .ok (.radialBlur { center := some ⟨1, 3⟩, strength := 2 }) ∧
      Document.request.ofText (String.ofList (written (Document.taggedTree .radialBlur tilted))) =
        .ok (.radialBlur { center := some ⟨1, 3⟩, strength := 2 })) ∧
    request "__GL_ow-" dim = .ok (.glow { radius := 7 }) ∧
    (EffectRequest.glow { radius := 7 }).validate = .ok () ∧
    request "\n sparkle " .null = .error (.unsupportedKind "sparkle") := by
  obtain ⟨hagree, hheld, hvalid, hother⟩ := spellings_agree
  have htilted : request " Radial-BLUR\t" tilted =
      .ok (.radialBlur { center := some ⟨1, 3⟩, strength := 2 }) := by decide +kernel
  have hdim : request "__GL_ow-" dim = .ok (.glow { radius := 7 }) :=
    (hheld "__GL_ow-" (.glow { radius := 7 }) (by decide) rfl (show 7 < UInt32.size by decide)).1
      dim proper_dim held_dim
  have htagged := (hagree " Radial-BLUR\t" .radialBlur tilted (by decide) proper_tilted (by nofun)
    (.radialBlur { center := some ⟨1, 3⟩, strength := 2 })).1.mp htilted
  refine ⟨⟨htilted, htagged.1⟩, hdim, hvalid _ _ _ hdim, ?_⟩
  exact hother "\n sparkle " .null (by decide) (by intro k; cases k <;> decide)

end ParticleFx.EffectKind
