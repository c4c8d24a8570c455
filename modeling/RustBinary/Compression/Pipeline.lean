import RustBinary.Compression.Frame

/-!
# Frames come back

What is serialized is a frame that is accepted and holds the payload; and a reader that starts with
a frame is read like the frame alone.
-/

namespace RustBinary.Compression

open Lib Lib.Outcome

/-! ## Headers -/

/-- What a header that is accepted says. -/
structure Header (header : List UInt8) (flags rawLen storedLen : ℕ) : Prop where
  length_eq : header.length = headerLen
  magic_eq : header.take 4 = magic
  version_eq : leNat ((header.drop 4).take 2) = version
  flags_eq : leNat ((header.drop 6).take 2) = flags
  flags_known : flags &&& (0xffff - compressed) = 0
  rawLen_eq : leNat ((header.drop 8).take 8) = rawLen
  storedLen_eq : leNat ((header.drop 16).take 8) = storedLen
  lengths : checkLengths flags rawLen storedLen = .ok ()

lemma parseHeader_eq_ok {header : List UInt8} {flags rawLen storedLen : ℕ} :
    parseHeader header = .ok (flags, rawLen, storedLen) ↔
      Header header flags rawLen storedLen := by
  rw [parseHeader]
  simp only [bind_eq_ok, require_eq_ok, exists_const, Outcome.ok.injEq, Prod.mk.injEq]
  constructor
  · rintro ⟨hlen, hmagic, hversion, hflags, _, hlengths, rfl, rfl, rfl⟩
    exact ⟨hlen, hmagic, hversion, rfl, hflags, rfl, rfl, hlengths⟩
  · rintro ⟨hlen, hmagic, hversion, rfl, hflags, rfl, rfl, hlengths⟩
    exact ⟨hlen, hmagic, hversion, hflags, (), hlengths, rfl, rfl, rfl⟩

/-- The bytes of a header. -/
def headerBytes (flags rawLen storedLen : ℕ) : List UInt8 :=
  magic ++ (leBytes 2 version ++ (leBytes 2 flags ++ (leBytes 8 rawLen ++ leBytes 8 storedLen)))

lemma length_headerBytes (flags rawLen storedLen : ℕ) :
    (headerBytes flags rawLen storedLen).length = headerLen := by
  simp only [headerBytes, List.length_append, length_leBytes, headerLen]
  rfl

lemma header_headerBytes {flags rawLen storedLen : ℕ} (hflags : flags ≤ compressed)
    (hraw : rawLen < 2 ^ 64) (hstored : storedLen < 2 ^ 64)
    (hlengths : checkLengths flags rawLen storedLen = .ok ()) :
    Header (headerBytes flags rawLen storedLen) flags rawLen storedLen := by
  have hbytes : ((headerBytes flags rawLen storedLen).drop 6).take 2 = leBytes 2 flags ∧
      ((headerBytes flags rawLen storedLen).drop 8).take 8 = leBytes 8 rawLen ∧
      ((headerBytes flags rawLen storedLen).drop 16).take 8 = leBytes 8 storedLen :=
    ⟨rfl, rfl, rfl⟩
  rw [compressed] at hflags
  refine ⟨length_headerBytes _ _ _, rfl, rfl, ?_, ?_, ?_, ?_, hlengths⟩
  · rw [hbytes.1, leNat_leBytes (by omega)]
  · obtain rfl | rfl : flags = 0 ∨ flags = 1 := by omega
    · rfl
    · rfl
  · rw [hbytes.2.1, leNat_leBytes hraw]
  · rw [hbytes.2.2, leNat_leBytes hstored]

namespace CompressedConfig

variable {T : Type} {c : CompressedConfig T}

/-! ## Writing -/

/-- What is stored for a payload: the payload itself, or what unpacks to it. -/
inductive Stores (raw : List UInt8) : ℕ → List UInt8 → Prop
  | raw : Stores raw 0 raw
  | packed {stored : List UInt8} (hlt : stored.length < raw.length)
      (h : ∀ n, raw.length ≤ n → Lz.decompress stored n = .ok raw) : Stores raw compressed stored

lemma Stores.length_le {raw stored : List UInt8} {flags : ℕ} (h : Stores raw flags stored) :
    stored.length ≤ raw.length := by
  cases h with
  | raw => exact Nat.le_refl _
  | packed hlt _ => exact hlt.le

lemma Stores.checkLengths {raw stored : List UInt8} {flags : ℕ} (h : Stores raw flags stored) :
    flags ≤ compressed ∧ Compression.checkLengths flags raw.length stored.length = .ok () := by
  cases h with
  | raw => exact ⟨Nat.zero_le _, if_pos rfl⟩
  | packed hlt _ => exact ⟨Nat.le_refl _, if_pos hlt⟩

lemma store_stores {raw : List UInt8} {packed : Option (List UInt8)}
    (h : ∀ bytes, packed = some bytes → ∀ n, raw.length ≤ n → Lz.decompress bytes n = .ok raw) :
    Stores raw (store raw packed).1 (store raw packed).2 := by
  cases packed with
  | none => exact .raw
  | some bytes =>
      rw [store]
      split
      · next hlt => exact .packed hlt (h bytes rfl)
      · exact .raw

lemma compressPayload_eq (c : CompressedConfig T) {raw : List UInt8} (hraw : raw.length < 2 ^ 32) :
    ∃ packed, c.compressPayload raw = .ok packed ∧
      ∀ bytes, packed = some bytes → ∀ n, raw.length ≤ n → Lz.decompress bytes n = .ok raw := by
  rw [compressPayload]
  split
  · obtain ⟨out, hout, hback⟩ := Lz.exists_compress raw c.level
    rw [hout]
    refine ⟨if out.isEmpty then none else some out, rfl, fun bytes hbytes n hn => ?_⟩
    split at hbytes
    · cases hbytes
    · next hempty =>
        cases hbytes
        exact hback hraw (by simpa using hempty) n hn
  · exact ⟨none, rfl, fun bytes h => by cases h⟩

/-- What `serialize` writes, for a payload of at most `u32::MAX` bytes. -/
lemma serialize_eq {value : T} {raw : List UInt8} (h : c.payload.serialize value = .ok raw)
    (hraw : raw.length < 2 ^ 32) :
    ∃ flags stored, Stores raw flags stored ∧
      c.serialize value = .ok (headerBytes flags raw.length stored.length ++ stored) := by
  obtain ⟨packed, hpacked, hback⟩ := c.compressPayload_eq hraw
  have hstores := store_stores hback
  have hlen := hstores.length_le
  have hreserve : saturatingAdd headerLen (store raw packed).2.length ≤ isizeMax := by
    rw [saturatingAdd, headerLen, isizeMax]
    omega
  have hheader : header (store raw packed).1 raw.length (store raw packed).2.length =
      .ok (headerBytes (store raw packed).1 raw.length (store raw packed).2.length) := by
    rw [header, require_of (by rw [u64Max]; omega), ok_bind, require_of (by rw [u64Max]; omega)]
    rfl
  refine ⟨_, _, hstores, ?_⟩
  rw [serialize, mapErr_eq_ok.mpr h, ok_bind, hpacked, ok_bind]
  dsimp only
  rw [require_of hreserve, ok_bind, hheader, ok_bind]

/-! ## Reading -/

lemma unpackPayload_stores {raw stored : List UInt8} {flags : ℕ} (h : Stores raw flags stored)
    (hraw : raw.length < 2 ^ 32) :
    unpackPayload flags raw.length stored.length stored = .ok raw := by
  cases h with
  | raw =>
      rw [unpackPayload, if_neg (by decide), require_of rfl]
      rfl
  | packed hlt hback =>
      rw [unpackPayload, if_pos (by decide), checkedAdd, if_pos (by rw [u64Max]; omega),
        okOr_some, ok_bind, hback _ (Nat.le_succ _)]
      exact bind_eq_ok.mpr ⟨raw, rfl, bind_eq_ok.mpr ⟨(), require_of rfl, rfl⟩⟩

lemma slice_headerBytes {flags rawLen storedLen : ℕ} (stored : List UInt8) :
    slice (headerBytes flags rawLen storedLen ++ stored) 0 headerLen =
      some (headerBytes flags rawLen storedLen) := by
  have hslice := slice_append [] (headerBytes flags rawLen storedLen) stored
  rwa [List.length_nil, Nat.zero_add, length_headerBytes] at hslice

lemma slice_stored {flags rawLen storedLen : ℕ} (stored : List UInt8) :
    slice (headerBytes flags rawLen storedLen ++ stored) headerLen (headerLen + stored.length) =
      some stored := by
  have hslice := slice_append (headerBytes flags rawLen storedLen) stored []
  rwa [length_headerBytes, List.append_nil] at hslice

lemma parseFrame_headerBytes {raw stored : List UInt8} {flags : ℕ} (h : Stores raw flags stored)
    (hraw : raw.length < 2 ^ 32) (trailing : TrailingBytes) :
    parseFrame (headerBytes flags raw.length stored.length ++ stored) trailing =
      .ok (flags, raw.length, stored.length, stored) := by
  have hlen := h.length_le
  obtain ⟨hflags, hlengths⟩ := h.checkLengths
  have hheader := header_headerBytes hflags (show raw.length < 2 ^ 64 by omega)
    (show stored.length < 2 ^ 64 by omega) hlengths
  have hend : trailing = .reject → headerLen + stored.length =
      (headerBytes flags raw.length stored.length ++ stored).length := by
    intro _
    rw [List.length_append, length_headerBytes]
  rw [parseFrame, slice_headerBytes, okOr_some, ok_bind, parseHeader_eq_ok.mpr hheader, ok_bind]
  dsimp only
  rw [require_of (by rw [u64Max]; omega), ok_bind, checkedAdd,
    if_pos (by rw [u64Max, headerLen]; omega), okOr_some, ok_bind, slice_stored, okOr_some, ok_bind,
    require_of hend, ok_bind]

/-- The frame of a payload is read back. -/
lemma deserialize_headerBytes {value : T} {raw stored : List UInt8} {flags : ℕ}
    (hvalue : c.payload.serialize value = .ok raw) (h : Stores raw flags stored)
    (hlimit : raw.length ≤ c.payload.base.limit.getD defaultSizeLimit)
    (hraw : raw.length < 2 ^ 32) :
    c.deserialize (headerBytes flags raw.length stored.length ++ stored) = .ok value := by
  have hlen := h.length_le
  obtain ⟨hflags, hlengths⟩ := h.checkLengths
  have hheader := header_headerBytes hflags (show raw.length < 2 ^ 64 by omega)
    (show stored.length < 2 ^ 64 by omega) hlengths
  have hbound : c.enforceRawLimit raw.length = .ok () := require_of hlimit
  rw [deserialize, slice_headerBytes, okOr_some, ok_bind, parseHeader_eq_ok.mpr hheader, ok_bind]
  dsimp only
  rw [hbound, ok_bind, parseFrame_headerBytes h hraw, ok_bind]
  dsimp only
  rw [unpackPayload_stores h hraw, ok_bind]
  exact mapErr_eq_ok.mpr (c.payload.deserialize_serialize value raw hvalue)

/-! ## Readers -/

/-- The stored length that the header of a frame declares. -/
def declared (frame : List UInt8) : ℕ := leNat ((frame.drop 16).take 8)

/-- A reader that starts with a frame is read like the frame, and not beyond it. -/
lemma deserializeFrom_append (c : CompressedConfig T) (frame : Slice 1 UInt8)
    (rest : List UInt8) (hframe : frame.elems.length = headerLen + declared frame.elems) :
    ∃ used ≤ frame.elems.length, c.deserializeFrom (frame.elems ++ rest) =
      (c.deserialize frame.elems, (frame.elems ++ rest).drop used) := by
  obtain ⟨bytes, hsize⟩ := frame
  dsimp only at hframe ⊢
  have hlen : headerLen ≤ bytes.length := by omega
  have hread : readExact headerLen (bytes ++ rest) =
      (.ok (bytes.take headerLen), (bytes ++ rest).drop headerLen) := by
    rw [readExact, if_pos (by rw [List.length_append]; omega), List.take_append_of_le_length hlen]
  have hslice : slice bytes 0 headerLen = some (bytes.take headerLen) :=
    slice_eq_some.mpr ⟨Nat.zero_le _, hlen, rfl⟩
  rw [deserializeFrom, Act.bind_of_ok hread, deserialize, hslice, okOr_some, ok_bind]
  cases hparse : parseHeader (bytes.take headerLen) with
  | err e => exact ⟨headerLen, hlen, rfl⟩
  | panic => exact ⟨headerLen, hlen, rfl⟩
  | diverge => exact ⟨headerLen, hlen, rfl⟩
  | ok lengths =>
      obtain ⟨flags, rawLen, storedLen⟩ := lengths
      have hstored : storedLen = declared bytes := by
        rw [← (parseHeader_eq_ok.mp hparse).storedLen_eq, declared, headerLen, List.drop_take,
          List.take_take]
        rfl
      rw [ok_bind, Act.bind_of_ok (Act.call_run _ _)]
      dsimp only
      cases hlimit : c.enforceRawLimit rawLen with
      | err e => exact ⟨headerLen, hlen, rfl⟩
      | panic => exact ⟨headerLen, hlen, rfl⟩
      | diverge => exact ⟨headerLen, hlen, rfl⟩
      | ok _ =>
          refine ⟨bytes.length, Nat.le_refl _, ?_⟩
          have hmax : bytes.length ≤ isizeMax := by
            rw [one_mul] at hsize
            exact hsize
          rw [hstored] at hparse ⊢
          have hadd : checkedAdd headerLen (declared bytes) = some bytes.length := by
            rw [checkedAdd, ← hframe, if_pos]
            rw [isizeMax] at hmax
            rw [u64Max]
            omega
          have hwhole : bytes.take headerLen ++ (bytes.drop headerLen ++ rest).take
              (declared bytes) = bytes := by
            have hrest : (bytes.drop headerLen).length = declared bytes := by
              rw [List.length_drop]
              omega
            rw [List.take_append_of_le_length hrest.ge, ← hrest, List.take_length,
              List.take_append_drop]
          have hstream : (bytes ++ rest).drop headerLen = bytes.drop headerLen ++ rest :=
            List.drop_append_of_le_length hlen
          have hdrop : (bytes.drop headerLen ++ rest).drop (declared bytes) =
              (bytes ++ rest).drop bytes.length := by
            rw [← hstream, List.drop_drop, ← hframe]
          have hret : readToEnd (declared bytes) ((bytes ++ rest).drop headerLen) =
              (.ok ((bytes.drop headerLen ++ rest).take (declared bytes)),
                (bytes ++ rest).drop bytes.length) := by
            rw [readToEnd, hstream, hdrop]
          have hsame : (bytes.take headerLen ++
              (bytes.drop headerLen ++ rest).take (declared bytes)).length =
                headerLen + declared bytes := by
            rw [hwhole, hframe]
          rw [ok_bind, Act.bind_of_ok (Act.call_run _ _),
            require_of (show declared bytes ≤ u64Max by rw [isizeMax] at hmax; rw [u64Max]; omega),
            Act.bind_of_ok (Act.call_run _ _), hadd, okOr_some, Act.bind_of_ok (Act.call_run _ _),
            require_of hmax, Act.bind_of_ok (Act.call_run _ _), Act.bind_of_ok hret,
            require_of hsame, Act.bind_of_ok (Act.call_run _ _), hwhole, Act.call_run, deserialize,
            hslice, okOr_some, ok_bind, hparse, ok_bind]
          dsimp only
          rw [hlimit, ok_bind]

/-- Under a limit of at most `u32::MAX`, the frame of a value is accepted and gives the value back,
and is at most a header longer than the payload; and whatever the frame, a reader that starts with
it is read like the frame alone, and not beyond it. -/
theorem frame_pipeline (c : CompressedConfig T) :
    (∀ limit, c.payload.base.limit = some limit → limit ≤ 2 ^ 32 - 1 → ∀ value raw,
      c.payload.serialize value = .ok raw → ∃ frame, c.serialize value = .ok frame ∧
        frame.length ≤ headerLen + raw.length ∧ c.deserialize frame = .ok value) ∧
    ∀ frame : Slice 1 UInt8, frame.elems.length = headerLen + declared frame.elems →
      ∀ rest, ∃ used ≤ frame.elems.length, c.deserializeFrom (frame.elems ++ rest) =
        (c.deserialize frame.elems, (frame.elems ++ rest).drop used) := by
  refine ⟨fun limit hlimit hmax value raw hvalue => ?_,
    fun frame hframe rest => deserializeFrom_append c frame rest hframe⟩
  have hle := c.payload.length_le value raw hvalue limit hlimit
  have hraw : raw.length < 2 ^ 32 := by omega
  obtain ⟨flags, stored, hstores, hserialize⟩ := serialize_eq hvalue hraw
  refine ⟨_, hserialize, ?_, deserialize_headerBytes hvalue hstores (by rwa [hlimit]) hraw⟩
  rw [List.length_append, length_headerBytes]
  exact Nat.add_le_add_left hstores.length_le _

end CompressedConfig

end RustBinary.Compression
