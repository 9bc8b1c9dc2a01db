import IndieWorker.Session.Frame

/-!
# The body encoding is a bijection

Every reader of `Session.Frame` accepts exactly what the matching writer writes.
`decode_eq_ok_iff` puts the thirteen bodies together: a byte list decodes to `f`
exactly when it is the encoding of `f` and the lengths `f` carries fit their
four-byte prefixes.
-/

namespace IndieWorker
namespace Session

open BigEndian Reading

/-- The bytes of a string fit a four-byte length. -/
def Short (s : String) : Prop := (asBytes s).length < 2 ^ 32

/-! ## Positions in a slice -/

namespace Reader

/-- The bytes not read yet. -/
def rest (r : Reader) : Bytes := r.bytes.drop r.pos

/-- Reading `w` moves from `r` to `r'`. -/
def follows (r : Reader) (w : Bytes) (r' : Reader) : Prop :=
  r'.bytes = r.bytes ∧ r.rest = w ++ r'.rest

theorem eq_of_rest {r r' : Reader} (hb : r'.bytes = r.bytes) (hr : r'.rest = r.rest) :
    r' = r := by
  have hlen := congrArg List.length hr
  have h := r.bound
  have h' := r'.bound
  obtain ⟨bytes, pos, bound⟩ := r
  obtain ⟨bytes', pos', bound'⟩ := r'
  simp only at hb
  subst hb
  simp only [rest, List.length_drop] at hlen h h'
  have : pos' = pos := by omega
  subst this
  rfl

instance : Input Reader UInt8 where
  follows := follows
  follows_nil := by
    intro r r'
    constructor
    · intro h
      obtain ⟨hb, hr⟩ := h
      exact eq_of_rest hb hr.symm
    · intro heq
      subst heq
      exact ⟨rfl, rfl⟩
  follows_append := by
    intro r u v r''
    constructor
    · intro h
      obtain ⟨hb, hr⟩ := h
      have hlen := congrArg List.length hr
      simp only [rest, List.length_drop, List.length_append] at hlen
      have hbound := r.bound
      have hstop : r.pos + u.length ≤ r.bytes.length := by omega
      have hmid : (⟨r.bytes, r.pos + u.length, hstop⟩ : Reader).rest = v ++ r''.rest := by
        rw [rest, ← List.drop_drop]
        show r.rest.drop u.length = _
        rw [hr, List.append_assoc, List.drop_left]
      exact ⟨⟨r.bytes, r.pos + u.length, hstop⟩, ⟨rfl, by rw [hr, hmid, List.append_assoc]⟩,
        hb, hmid⟩
    · intro h
      obtain ⟨r', ⟨hb, hr⟩, hb', hr'⟩ := h
      exact ⟨hb'.trans hb, by rw [hr, hr', List.append_assoc]⟩

theorem take_accepts (n : Nat) : Accepts (take n) (fun xs w => xs.length = n ∧ w = xs) := by
  intro r xs r'
  have hbound := r.bound
  have hrest : r.rest.length = r.bytes.length - r.pos := List.length_drop
  unfold take
  split
  · next h =>
    simp only [Except.ok.injEq, Prod.mk.injEq]
    constructor
    · intro hand
      obtain ⟨rfl, rfl⟩ := hand
      refine ⟨r.rest.take n, ⟨?_, rfl⟩, rfl, ?_⟩
      · show (r.rest.take n).length = n
        rw [List.length_take]
        omega
      · show r.rest = r.rest.take n ++ r.bytes.drop (r.pos + n)
        rw [← List.drop_drop]
        exact (List.take_append_drop n r.rest).symm
    · intro hex
      obtain ⟨w, ⟨hn, rfl⟩, hb, hr⟩ := hex
      have hstop : (⟨r.bytes, r.pos + n, h⟩ : Reader).rest = r'.rest := by
        rw [rest, ← List.drop_drop]
        show r.rest.drop n = r'.rest
        rw [hr, ← hn, List.drop_left]
      refine ⟨?_, eq_of_rest hb.symm hstop⟩
      show r.rest.take n = w
      rw [hr, ← hn, List.take_left]
  · next h =>
    simp only [reduceCtorEq, false_iff]
    intro hex
    obtain ⟨w, ⟨hn, rfl⟩, -, hr⟩ := hex
    have := congrArg List.length hr
    rw [List.length_append] at this
    omega

theorem u8_accepts : Accepts u8 (fun b w => w = [b]) := by
  refine ((take_accepts 1).bind fun b => accepts_pure _).congr fun b w => ?_
  constructor
  · intro h
    obtain ⟨xs, u, v, ⟨hlen, rfl⟩, ⟨rfl, rfl⟩, rfl⟩ := h
    obtain ⟨x, rfl⟩ := List.length_eq_one_iff.mp hlen
    rfl
  · intro heq
    subst heq
    exact ⟨[b], [b], [], ⟨rfl, rfl⟩, ⟨rfl, rfl⟩, rfl⟩

/-- A fixed-width read, given that the width holds the type. -/
theorem fixed_accepts {α : Type} {n : Nat} {put : α → Nat} {get : Nat → α}
    (hput : ∀ a, put a < 256 ^ n) (hget : ∀ a, get (put a) = a)
    (hval : ∀ v, v < 256 ^ n → put (get v) = v) :
    Accepts (do let b ← take n; return get (beValue b)) (fun a w => w = beBytes n (put a)) := by
  refine ((take_accepts n).bind fun b => accepts_pure _).congr fun a w => ?_
  rw [eq_beBytes_iff (hput a)]
  constructor
  · intro h
    obtain ⟨xs, u, v, ⟨rfl, rfl⟩, ⟨rfl, rfl⟩, rfl⟩ := h
    rw [List.append_nil, hval _ (beValue_lt _)]
    exact ⟨rfl, rfl⟩
  · intro h
    obtain ⟨hlen, hw⟩ := h
    exact ⟨w, w, [], ⟨hlen, rfl⟩, ⟨by rw [hw, hget], rfl⟩, (List.append_nil w).symm⟩

theorem u16_accepts : Accepts u16 (fun v w => w = putU16 v) :=
  fixed_accepts (fun a => a.toNat_lt) (fun _ => UInt16.ofNat_toNat)
    (fun _ h => UInt16.toNat_ofNat_of_lt' h)

theorem u32_accepts : Accepts u32 (fun v w => w = putU32 v) :=
  fixed_accepts (fun a => a.toNat_lt) (fun _ => UInt32.ofNat_toNat)
    (fun _ h => UInt32.toNat_ofNat_of_lt' h)

theorem u64_accepts : Accepts u64 (fun v w => w = putU64 v) :=
  fixed_accepts (fun a => a.toNat_lt) (fun _ => UInt64.ofNat_toNat)
    (fun _ h => UInt64.toNat_ofNat_of_lt' h)

theorem u32OrMax_toNat {n : Nat} (h : n < 2 ^ 32) : (u32OrMax n).toNat = n := by
  rw [u32OrMax, if_pos h]
  exact UInt32.toNat_ofNat_of_lt' h

theorem u32OrMax_of_toNat (v : UInt32) : u32OrMax v.toNat = v := by
  rw [u32OrMax, if_pos v.toNat_lt]
  exact UInt32.ofNat_toNat

theorem bytesField_accepts :
    Accepts bytesField (fun xs w => xs.length < 2 ^ 32 ∧ w = putBytes xs) := by
  refine (u32_accepts.bind fun len => take_accepts len.toNat).congr fun xs w => ?_
  constructor
  · intro h
    obtain ⟨len, u, v, rfl, ⟨hlen, rfl⟩, rfl⟩ := h
    refine ⟨by rw [hlen]; exact len.toNat_lt, ?_⟩
    rw [putBytes, hlen, u32OrMax_of_toNat]
  · intro h
    obtain ⟨hlen, rfl⟩ := h
    exact ⟨u32OrMax xs.length, _, xs, rfl, ⟨(u32OrMax_toNat hlen).symm, rfl⟩, rfl⟩

theorem fromUTF8?_eq_some_iff {raw : Bytes} {s : String} :
    String.fromUTF8? ⟨raw.toArray⟩ = some s ↔ raw = asBytes s := by
  unfold String.fromUTF8?
  constructor
  · intro h
    split at h
    · cases h
      rfl
    · cases h
  · intro heq
    subst heq
    have hs : (⟨(asBytes s).toArray⟩ : ByteArray) = s.toByteArray := rfl
    rw [hs, dif_pos s.isValidUTF8]
    rfl

theorem string_accepts : Accepts string (fun s w => Short s ∧ w = putStr s) := by
  unfold string
  refine (bytesField_accepts.bind (S := fun raw s w => raw = asBytes s ∧ w = [])
    fun raw => ?_).congr fun s w => ?_
  · rcases hs : String.fromUTF8? ⟨raw.toArray⟩ with _ | s
    · refine (accepts_throw _).congr fun t w => ?_
      simp only [false_iff, not_and]
      intro ht
      rw [fromUTF8?_eq_some_iff.mpr ht] at hs
      cases hs
    · refine (accepts_pure s).congr fun t w => and_congr_left' ?_
      rw [← fromUTF8?_eq_some_iff, hs]
      exact ⟨fun h => by rw [h], fun h => (Option.some.inj h).symm⟩
  · constructor
    · intro hex
      obtain ⟨raw, u, v, ⟨hlen, rfl⟩, ⟨rfl, rfl⟩, rfl⟩ := hex
      exact ⟨hlen, by rw [List.append_nil]; rfl⟩
    · intro hand
      obtain ⟨hlen, rfl⟩ := hand
      exact ⟨asBytes s, _, [], ⟨hlen, rfl⟩, ⟨rfl, rfl⟩, (List.append_nil _).symm⟩

/-- A leading byte that is 0, or 1 with something after it. -/
theorem flag_accepts {α : Type} {zero : α} {one : M α} {R : α → Bytes → Prop}
    (hone : Accepts one R) :
    Accepts (do match ← u8 with
      | 0 => return zero
      | 1 => one
      | _ => throw .malformed : M α)
      (fun a w => (a = zero ∧ w = [0]) ∨ ∃ v, R a v ∧ w = 1 :: v) := by
  have hnext : ∀ b : UInt8, Accepts (match b with
      | 0 => return zero
      | 1 => one
      | _ => throw .malformed : M α)
      (fun a v => (b = 0 ∧ a = zero ∧ v = []) ∨ (b = 1 ∧ R a v)) := by
    intro b
    split
    · exact (accepts_pure zero).congr fun a v => by simp
    · exact hone.congr fun a v => by simp
    · next h0 h1 =>
      refine (accepts_throw _).congr fun a v => ?_
      simp only [false_iff, not_or, not_and]
      exact ⟨fun h => absurd h h0, fun h => absurd h h1⟩
  refine (u8_accepts.bind hnext).congr fun a w => ?_
  constructor
  · intro hex
    obtain ⟨b, u, v, rfl, ⟨rfl, rfl, rfl⟩ | ⟨rfl, hR⟩, rfl⟩ := hex
    · exact Or.inl ⟨rfl, rfl⟩
    · exact Or.inr ⟨v, hR, rfl⟩
  · intro hor
    rcases hor with ⟨rfl, rfl⟩ | ⟨v, hR, rfl⟩
    · exact ⟨0, [0], [], rfl, Or.inl ⟨rfl, rfl, rfl⟩, rfl⟩
    · exact ⟨1, [1], v, rfl, Or.inr ⟨rfl, hR⟩, rfl⟩

theorem optString_accepts :
    Accepts optString (fun o w => (∀ s ∈ o, Short s) ∧ w = putOptStr o) := by
  refine (flag_accepts (string_accepts.bind fun s => accepts_pure (some s))).congr fun o w => ?_
  rcases o with _ | s
  · simp [putOptStr]
  · simp [putOptStr]

theorem bool_accepts : Accepts bool (fun b w => w = [b.toUInt8]) := by
  refine (flag_accepts (accepts_pure true)).congr fun b w => ?_
  cases b <;> simp [Bool.toUInt8]

theorem optU64_accepts : Accepts optU64 (fun o w => w = putOptU64 o) := by
  refine (flag_accepts (u64_accepts.bind fun id => accepts_pure (some id))).congr fun o w => ?_
  rcases o with _ | id
  · simp [putOptU64]
  · simp [putOptU64]

theorem errorCode_accepts : Accepts errorCode (fun c w => w = [c.tag]) := by
  unfold errorCode
  refine (u8_accepts.bind (S := fun b c v => b = c.tag ∧ v = []) fun b => ?_).congr fun c w => ?_
  · rcases hb : ErrorCode.fromTag b with _ | code
    · refine (accepts_throw _).congr fun c v => ?_
      simp only [false_iff, not_and]
      intro hc
      rw [ErrorCode.fromTag_eq_some_iff.mpr hc] at hb
      cases hb
    · refine (accepts_pure code).congr fun c v => and_congr_left' ?_
      rw [← ErrorCode.fromTag_eq_some_iff, hb]
      exact ⟨fun h => by rw [h], fun h => (Option.some.inj h).symm⟩
  · constructor
    · intro hex
      obtain ⟨b, u, v, rfl, ⟨rfl, rfl⟩, rfl⟩ := hex
      rfl
    · intro heq
      subst heq
      exact ⟨c.tag, _, [], rfl, ⟨rfl, rfl⟩, rfl⟩

end Reader

namespace Frame

/-- Every string and byte field is shorter than `2 ^ 32` bytes. -/
def Fits : Frame → Prop
  | .hello _ resume => ∀ s ∈ resume, Short s
  | .welcome session _ _ => Short session
  | .ping _ | .pong _ => True
  | .subscribe stream _ _ | .unsubscribe stream | .credit stream _ | .lagged stream _ =>
    Short stream
  | .event stream _ payload => Short stream ∧ payload.length < 2 ^ 32
  | .command _ verb payload => Short verb ∧ payload.length < 2 ^ 32
  | .ack _ payload => payload.length < 2 ^ 32
  | .error _ _ message | .close _ message => Short message

open Reader in
/-- The reader for tag `t` reads exactly the fields of the frames with that tag. -/
theorem decodeFields_accepts (t : UInt8) :
    Accepts (decodeFields t) (fun f w => f.tag = t ∧ f.Fits ∧ w = f.encodeFields) := by
  unfold decodeFields
  split
  · refine (accepts_map₂ Frame.hello u16_accepts optString_accepts).congr fun f w => ?_
    cases f <;> simp [tag, Fits, encodeFields, and_assoc]
  · refine (accepts_map₃ Frame.welcome string_accepts bool_accepts u32_accepts).congr fun f w => ?_
    cases f <;> simp [tag, Fits, encodeFields, and_assoc]
  · refine (accepts_map Frame.ping u64_accepts).congr fun f w => ?_
    cases f <;> simp [tag, Fits, encodeFields, and_assoc]
  · refine (accepts_map Frame.pong u64_accepts).congr fun f w => ?_
    cases f <;> simp [tag, Fits, encodeFields, and_assoc]
  · refine (accepts_map₃ Frame.subscribe string_accepts u64_accepts u32_accepts).congr
      fun f w => ?_
    cases f <;> simp [tag, Fits, encodeFields, and_assoc]
  · refine (accepts_map Frame.unsubscribe string_accepts).congr fun f w => ?_
    cases f <;> simp [tag, Fits, encodeFields, and_assoc]
  · refine (accepts_map₂ Frame.credit string_accepts u32_accepts).congr fun f w => ?_
    cases f <;> simp [tag, Fits, encodeFields, and_assoc]
  · refine (accepts_map₃ Frame.event string_accepts u64_accepts bytesField_accepts).congr
      fun f w => ?_
    cases f <;> simp [tag, Fits, encodeFields, and_assoc]
  · refine (accepts_map₂ Frame.lagged string_accepts u64_accepts).congr fun f w => ?_
    cases f <;> simp [tag, Fits, encodeFields, and_assoc]
  · refine (accepts_map₃ Frame.command u64_accepts string_accepts bytesField_accepts).congr
      fun f w => ?_
    cases f <;> simp [tag, Fits, encodeFields, and_assoc]
  · refine (accepts_map₂ Frame.ack u64_accepts bytesField_accepts).congr fun f w => ?_
    cases f <;> simp [tag, Fits, encodeFields, and_assoc]
  · refine (accepts_map₃ Frame.error optU64_accepts errorCode_accepts string_accepts).congr
      fun f w => ?_
    cases f <;> simp [tag, Fits, encodeFields, and_assoc]
  · refine (accepts_map₂ Frame.close errorCode_accepts string_accepts).congr fun f w => ?_
    cases f <;> simp [tag, Fits, encodeFields, and_assoc]
  · refine (accepts_throw _).congr fun f w => ?_
    simp only [false_iff]
    intro h
    obtain ⟨rfl, -⟩ := h
    cases f <;> simp_all [tag]

open Reader in
theorem body_accepts :
    Accepts (do decodeFields (← u8) : M Frame) (fun f w => f.Fits ∧ w = f.encode) := by
  refine (u8_accepts.bind decodeFields_accepts).congr fun f w => ?_
  constructor
  · intro h
    obtain ⟨t, u, v, rfl, ⟨rfl, hf, rfl⟩, rfl⟩ := h
    exact ⟨hf, rfl⟩
  · intro h
    obtain ⟨hf, rfl⟩ := h
    exact ⟨f.tag, [f.tag], f.encodeFields, rfl, ⟨rfl, hf, rfl⟩, rfl⟩

/-- A position at the end has nothing left to read. -/
theorem done_iff (r : Reader) : r.done = true ↔ r.rest = [] := by
  have := r.bound
  rw [Reader.done, beq_iff_eq, Reader.rest, List.drop_eq_nil_iff]
  omega

/-- The decoder accepts the encodings of the frames whose lengths fit, each as
that frame, and nothing else. -/
theorem decode_eq_ok_iff {b : Bytes} {f : Frame} :
    decode b = .ok f ↔ f.Fits ∧ b = f.encode := by
  have hbody := body_accepts (Reader.new b) f
  have hrest : (Reader.new b).rest = b := rfl
  constructor
  · intro h
    rcases hrun : (do decodeFields (← Reader.u8) : Reader.M Frame) (Reader.new b) with e | ⟨g, r⟩
    · rw [decode, hrun] at h
      cases h
    · rw [decode, hrun] at h
      by_cases hdone : r.done = true
      · have hg : g = f := by simpa [hdone, bind, Except.bind, pure, Except.pure] using h
        subst hg
        obtain ⟨w, ⟨hf, rfl⟩, -, hw⟩ := (hbody r).mp hrun
        rw [hrest, (done_iff r).mp hdone, List.append_nil] at hw
        exact ⟨hf, hw⟩
      · simp [hdone, bind, Except.bind, throw, throwThe, MonadExceptOf.throw] at h
  · intro hand
    obtain ⟨hf, rfl⟩ := hand
    have hend : (⟨f.encode, f.encode.length, Nat.le_refl _⟩ : Reader).rest = [] :=
      List.drop_length
    have hrun := (hbody ⟨f.encode, f.encode.length, Nat.le_refl _⟩).mpr
      ⟨f.encode, ⟨hf, rfl⟩, rfl, by rw [hrest, hend, List.append_nil]⟩
    rw [decode, hrun]
    simp [Reader.done, bind, Except.bind, pure, Except.pure]

/-- The body encoding is a bijection from the frames whose lengths fit to the
byte strings the decoder accepts. -/
theorem encode_decode_bijection :
    (∀ f : Frame, f.Fits → decode f.encode = .ok f) ∧
      (∀ b f, decode b = .ok f → f.encode = b) ∧
      (∀ b b' f, decode b = .ok f → decode b' = .ok f → b = b') := by
  refine ⟨fun f hf => decode_eq_ok_iff.mpr ⟨hf, rfl⟩,
    fun b f h => (decode_eq_ok_iff.mp h).2.symm, fun b b' f h h' => ?_⟩
  rw [(decode_eq_ok_iff.mp h).2, (decode_eq_ok_iff.mp h').2]

theorem encode_decode_bijection_unsubscribe :
    decode (Frame.unsubscribe "s").encode = .ok (.unsubscribe "s") ∧
      (Frame.unsubscribe "s").encode = [6, 0, 0, 0, 1, 115] :=
  ⟨encode_decode_bijection.1 _ (show (asBytes "s").length < 2 ^ 32 by decide),
    encode_decode_bijection.2.1 [6, 0, 0, 0, 1, 115] _ (by rfl)⟩

end Frame

end Session
end IndieWorker
