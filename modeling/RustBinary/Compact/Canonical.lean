import RustBinary.Compact.RoundTrip

/-!
# One spelling for each value

Without maps, everything that the decoder takes is the wire of what it comes back with.  That this
is serialized again is a matter of the depth limit: the decoder counts no byte slice as a
collection, but the encoder does.
-/

namespace RustBinary.Compact

open Lib Lib.Act CompactCursor

/-! ## Readers of one spelling -/

section Sound

variable {α β : Type} {m : Dec α} {p : α → Prop} {w : α → List UInt8} {h : α → ℕ}

/-- What `m` comes back with satisfies `p`, and `m` has read `w` of it, with `h` of it collections
nested. -/
def Sound (m : Dec α) (p : α → Prop) (w : α → List UInt8) (h : α → ℕ) : Prop :=
  ∀ c, Tape.Here c ([] : List UInt8) → c.depth ≤ c.depthLimit → ∀ a t, m c = (.ok a, t) →
    p a ∧ Tape.Here c (w a) ∧ t = Tape.advance c (w a).length ∧ c.depth + h a ≤ c.depthLimit

namespace Sound

lemma of_spells (hm : Spells Anywhere m fun a bs => p a ∧ bs = w a) :
    Sound m p w fun _ => 0 := by
  intro c hhere hdepth a t hrun
  obtain ⟨bs, ⟨hp, rfl⟩, hbs, rfl⟩ := (hm c trivial hhere a t).mp hrun
  exact ⟨hp, hbs, rfl, hdepth⟩

lemma congr {p' : α → Prop} {w' : α → List UInt8} {h' : α → ℕ} (hm : Sound m p w h)
    (heq : ∀ a, p a → p' a ∧ w a = w' a ∧ h a = h' a) : Sound m p' w' h' := by
  intro c hhere hdepth a t hrun
  obtain ⟨hp, hbs, ht, hn⟩ := hm c hhere hdepth a t hrun
  obtain ⟨hp', hw, hh⟩ := heq a hp
  rw [← hw, ← hh]
  exact ⟨hp', hbs, ht, hn⟩

/-- One spelling behind the other. -/
lemma bind {f : α → Dec β} {q : α → β → Prop} {r : β → Prop} {x : α → β → List UInt8}
    {v : β → List UInt8} {l : α → β → ℕ} {k : β → ℕ} (hm : Sound m p w h)
    (hf : ∀ a, p a → Sound (f a) (q a) (x a) (l a))
    (hb : ∀ a b, p a → q a b → r b ∧ v b = w a ++ x a b ∧ k b = max (h a) (l a b)) :
    Sound (m >>= f) r v k := by
  intro c hhere hdepth b u hrun
  obtain ⟨a, t, hfirst, hsecond⟩ := bind_eq_ok.mp hrun
  obtain ⟨hp, hxs, rfl, hn⟩ := hm c hhere hdepth a t hfirst
  obtain ⟨hq, hys, rfl, hk⟩ := hf a hp _ (here_behind hxs) hdepth b u hsecond
  obtain ⟨hr, hv, hkb⟩ := hb a b hp hq
  rw [hv, hkb]
  refine ⟨hr, (Tape.here_append _ _ _).mpr ⟨hxs, hys⟩, ?_, ?_⟩
  · rw [Tape.advance_advance, List.length_append]
  · change c.depth + l a b ≤ c.depthLimit at hk
    omega

lemma map {p' : β → Prop} {w' : β → List UInt8} {h' : β → ℕ} (hm : Sound m p w h) (f : α → β)
    (heq : ∀ a, p a → p' (f a) ∧ w' (f a) = w a ∧ h' (f a) = h a) :
    Sound (m >>= fun a => Pure.pure (f a)) p' w' h' := by
  intro c hhere hdepth b u hrun
  obtain ⟨a, t, hfirst, hpure⟩ := bind_eq_ok.mp hrun
  obtain ⟨hp, hxs, ht, hn⟩ := hm c hhere hdepth a t hfirst
  cases hpure
  obtain ⟨hp', hw, hh⟩ := heq a hp
  rw [hw, hh]
  exact ⟨hp', hxs, ht, hn⟩

lemma decodeTimes (hm : Sound m p w h) (n : ℕ) :
    Sound (decodeTimes m n) (fun as => as.length = n ∧ Every p as) (List.flatMap w)
      fun as => largest (as.map h) := by
  induction n with
  | zero =>
      refine (of_spells (p := fun as : List α => as = []) (w := fun _ => [])
        (Spells.pure [])).congr ?_
      rintro _ rfl
      exact ⟨⟨rfl, List.forall_mem_nil _⟩, rfl, rfl⟩
  | succ n ih =>
      refine hm.bind (q := fun a as => ∃ rest, as = a :: rest ∧ rest.length = n ∧ Every p rest)
        (x := fun _ as => as.tail.flatMap w) (l := fun _ as => largest (as.tail.map h))
        (fun a _ => ih.map (a :: ·) ?_) ?_
      · rintro rest ⟨hlen, hrest⟩
        exact ⟨⟨rest, rfl, hlen, hrest⟩, rfl, rfl⟩
      · rintro a _ ha ⟨rest, rfl, hlen, hrest⟩
        exact ⟨⟨congrArg Nat.succ hlen, List.forall_mem_cons.mpr ⟨ha, hrest⟩⟩, List.flatMap_cons, rfl⟩

/-- A collection behind its length. -/
lemma container {elements : ℕ → Dec α} {q : ℕ → α → Prop} {p' : α → Prop} {w' : α → List UInt8}
    {h' : α → ℕ} (hm : ∀ len, Sound (elements len) (q len) w h)
    (hb : ∀ len a, len ≤ u64Max → q len a →
      p' a ∧ w' a = encodeVarintLe len ++ w a ∧ h' a = h a + 1) :
    Sound (decodeContainer elements) p' w' h' := by
  intro c hhere hdepth a t hrun
  obtain ⟨len, u, v, hread, henter, helements, -, rfl⟩ := decodeContainer_eq_ok.mp hrun
  obtain ⟨_, ⟨hlen, rfl⟩, hhead, rfl⟩ := (spells_readLength c trivial hhere _ _).mp hread
  obtain ⟨hq, htail, rfl, hn⟩ := hm len _ (here_entered.mpr (here_behind hhead)) henter.depth_lt a v
    helements
  obtain ⟨hp', hw, hh⟩ := hb len a hlen hq
  rw [hw, hh]
  refine ⟨hp', (Tape.here_append _ _ _).mpr ⟨hhead, htail⟩, ?_, ?_⟩
  · rw [exited_advance, Tape.advance_advance, List.length_append]
  · change c.depth + 1 + h a ≤ c.depthLimit at hn
    omega

lemma tryReserve (size count : ℕ) :
    Sound (tryReserve size count) (fun _ => size * count ≤ isizeMax) (fun _ => []) fun _ => 0 :=
  of_spells (spells_tryReserve size count)

/-- A check in front reads nothing. -/
lemma skip {c : Prop} {g : Dec Unit} (hg : Sound g (fun _ => c) (fun _ => []) fun _ => 0)
    (hm : c → Sound m p w h) : Sound (do g; m) (fun a => c ∧ p a) w h :=
  hg.bind (fun _ hc => hm hc) fun _ a hc hp => ⟨⟨hc, hp⟩, rfl, (Nat.zero_max (h a)).symm⟩

end Sound

end Sound

/-! ## Types without maps -/

mutual

def CompactType.MapFree : CompactType → Prop
  | .scalar _ => True
  | .option t => t.MapFree
  | .vec t => t.MapFree
  | .deque t => t.MapFree
  | .array _ t => t.MapFree
  | .map _ _ _ => False
  | .struct fields => fields.MapFree
  | .enum variants => variants.MapFree

def Fields.MapFree : Fields → Prop
  | .nil => True
  | .cons t rest => t.MapFree ∧ rest.MapFree

def Variants.MapFree : Variants → Prop
  | .nil => True
  | .cons fields rest => fields.MapFree ∧ rest.MapFree

end

section Types

variable [Platform]

/-- A value as the decoder builds it. -/
def CompactType.Built (t : CompactType) (value : t.Value) : Prop :=
  t.Allocated value ∧ t.contiguous value = value

def Fields.Built (fields : Fields) (values : fields.Values) : Prop :=
  fields.Allocated values ∧ fields.contiguous values = values

def Variants.Built (variants : Variants) (value : variants.Value) : Prop :=
  variants.Allocated value ∧ variants.contiguous value = value

lemma map_contiguous {t : CompactType} {values : List t.Value} (h : Every t.Built values) :
    values.map t.contiguous = values := by
  have hid : values.map t.contiguous = values.map id :=
    List.map_congr_left fun value hvalue => (h value hvalue).2
  rw [hid, List.map_id]

lemma every_allocated {t : CompactType} {values : List t.Value} (h : Every t.Built values) :
    Every t.Allocated values := fun value hvalue => (h value hvalue).1

lemma Sound.elements {t : CompactType} (h : Sound t.decode t.Built t.wire t.depth) (len : ℕ) :
    Sound (t.decodeVec t.decode len)
      (fun values => Platform.size t * len ≤ isizeMax ∧ values.length = len ∧ Every t.Built values)
      (List.flatMap t.wire) fun values => largest (values.map t.depth) := by
  cases t with
  | scalar s =>
      intro c hhere hdepth values u hrun
      obtain ⟨hgather, -⟩ := Scalar.decodeVec_eq_ok.mp hrun
      obtain ⟨bs, ⟨hsize, hlen, hall, rfl⟩, hbs, rfl⟩ :=
        (s.spells_gather len c trivial hhere values u).mp hgather
      have hzero : largest (values.map (CompactType.scalar s).depth) = 0 :=
        largest_eq_zero (List.forall_mem_map.mpr fun _ _ => rfl)
      refine ⟨⟨?_, hlen, fun value hvalue => ⟨hall value hvalue, rfl⟩⟩, hbs, rfl, ?_⟩
      · rw [Platform.size_scalar]
        exact hsize
      · dsimp only
        rwa [hzero]
  | _ => exact (tryReserve _ len).skip fun _ => h.decodeTimes len

mutual

lemma CompactType.sound : (t : CompactType) → t.Accepted → t.MapFree →
    Sound t.decode t.Built t.wire t.depth
  | .scalar s, _, _ => (Sound.of_spells s.spells).congr fun _ h => ⟨⟨h, rfl⟩, rfl, rfl⟩
  | .option t, haccepted, hmap => by
      have hvalue := CompactType.sound t haccepted hmap
      intro c hhere hdepth value u hrun
      obtain ⟨present, v, hbool, hrest⟩ := bind_eq_ok.mp hrun
      obtain ⟨_, rfl, hhead, rfl⟩ := (spells_readBool c trivial hhere _ _).mp hbool
      cases present with
      | false =>
          cases hrest
          refine ⟨⟨?_, rfl⟩, hhead, rfl, hdepth⟩
          rintro _ ⟨⟩
      | true =>
          obtain ⟨a, v, hdecode, hpure⟩ := bind_eq_ok.mp hrest
          obtain ⟨⟨hallocated, hcontiguous⟩, htail, rfl, hn⟩ :=
            hvalue _ (here_behind hhead) hdepth a v hdecode
          cases hpure
          refine ⟨⟨?_, congrArg some hcontiguous⟩, (Tape.here_append c [1] _).mpr ⟨hhead, htail⟩,
            ?_, hn⟩
          · intro b hb
            obtain rfl := List.mem_singleton.mp hb
            exact hallocated
          · rw [Tape.advance_advance, CompactType.wire, List.length_cons, Nat.add_comm]
            rfl
  | .vec t, haccepted, hmap =>
      .container (Sound.elements (CompactType.sound t haccepted hmap))
        fun len values hlen ⟨hsize, hlength, hall⟩ => by
          subst hlength
          exact ⟨⟨⟨⟨hlen, hsize⟩, every_allocated hall⟩, map_contiguous hall⟩, rfl, rfl⟩
  | .deque t, haccepted, hmap =>
      .container (q := fun len pair => Platform.size t * len ≤ isizeMax ∧ pair.2 = [] ∧
          pair.1.length = len ∧ Every t.Built pair.1) (w := fun pair => pair.1.flatMap t.wire)
        (h := fun pair => largest (pair.1.map t.depth))
        (fun len => (Sound.tryReserve _ len).skip fun _ =>
          ((CompactType.sound t haccepted hmap).decodeTimes len).map
            (fun values => (values, ([] : List t.Value)))
            fun values ⟨hlen, hall⟩ => ⟨⟨rfl, hlen, hall⟩, rfl, rfl⟩)
        fun len pair hlen ⟨hsize, hnil, hlength, hall⟩ => by
          obtain ⟨values, tail⟩ := pair
          obtain rfl : tail = [] := hnil
          obtain rfl : values.length = len := hlength
          have happend := List.append_nil values
          refine ⟨⟨⟨⟨?_, ?_⟩, ?_⟩, ?_⟩, ?_, ?_⟩
          · rwa [happend]
          · rwa [happend]
          · rw [happend]
            exact every_allocated hall
          · rw [CompactType.contiguous, happend, map_contiguous hall]
          · rw [CompactType.wire, happend]
            rfl
          · rw [CompactType.depth, happend]
  | .array n t, haccepted, hmap =>
      ((CompactType.sound t haccepted.2 hmap).decodeTimes n).congr
        fun values ⟨hlen, hall⟩ => ⟨⟨⟨hlen, every_allocated hall⟩, map_contiguous hall⟩, rfl, rfl⟩
  | .struct fields, haccepted, hmap => Fields.sound fields haccepted hmap
  | .enum variants, haccepted, hmap =>
      (Sound.of_spells spells_decodeVariantIndex).bind
        (fun index _ => Variants.sound variants haccepted.2 hmap index)
        fun index value _ ⟨⟨hallocated, hcontiguous⟩, hindex⟩ => by
          subst hindex
          exact ⟨⟨hallocated, hcontiguous⟩, rfl, (Nat.zero_max _).symm⟩

lemma Fields.sound : (fields : Fields) → fields.Accepted → fields.MapFree →
    Sound fields.decode fields.Built fields.wire fields.depth
  | .nil, _, _ => (Sound.of_spells (p := fun _ => True) (w := fun _ => []) ((Spells.pure ()).congr
      fun _ _ => ⟨fun h => ⟨trivial, h.2⟩, fun h => ⟨rfl, h.2⟩⟩)).congr
        fun _ _ => ⟨⟨trivial, rfl⟩, rfl, rfl⟩
  | .cons t rest, haccepted, hmap =>
      (CompactType.sound t haccepted.1 hmap.1).bind
        (q := fun value pair => pair.1 = value ∧ rest.Built pair.2)
        (x := fun _ pair => rest.wire pair.2) (l := fun _ pair => rest.depth pair.2)
        (fun value _ => (Fields.sound rest haccepted.2 hmap.2).map
          (fun values => ((value, values) : t.Value × rest.Values))
          fun values h => ⟨⟨rfl, h⟩, rfl, rfl⟩)
        fun value pair ⟨hallocated, hcontiguous⟩ ⟨hvalue, hrest⟩ => by
          obtain ⟨head, values⟩ := pair
          obtain rfl : head = value := hvalue
          refine ⟨⟨⟨hallocated, hrest.1⟩, ?_⟩, rfl, rfl⟩
          rw [Fields.contiguous, hcontiguous, hrest.2]

lemma Variants.sound : (variants : Variants) → variants.Accepted → variants.MapFree →
    (index : ℕ) → Sound (variants.decode index)
      (fun value => variants.Built value ∧ variants.index value = index) variants.wire variants.depth
  | .nil, _, _, _ => by
      intro c _ _ value t hrun
      cases hrun
  | .cons fields rest, haccepted, hmap, 0 =>
      (Fields.sound fields haccepted.1 hmap.1).map
        (fun values => (.inl values : fields.Values ⊕ rest.Value))
        fun values ⟨hallocated, hcontiguous⟩ =>
          ⟨⟨⟨hallocated, congrArg Sum.inl hcontiguous⟩, rfl⟩, rfl, rfl⟩
  | .cons fields rest, haccepted, hmap, index + 1 =>
      (Variants.sound rest haccepted.2 hmap.2 index).map
        (fun value => (.inr value : fields.Values ⊕ rest.Value))
        fun value ⟨⟨hallocated, hcontiguous⟩, hindex⟩ =>
          ⟨⟨⟨hallocated, congrArg Sum.inr hcontiguous⟩, congrArg Nat.succ hindex⟩, rfl, rfl⟩

end

end Types

/-! ## Accepted inputs -/

section Inputs

variable [Platform] {config : Config} {t : CompactType} {address : ℕ} {input : Slice 1 UInt8}
  {value : t.Value}

/-- The decoder takes the wire of the value at an address: it is within the limits as the decoder
counts, and nothing is copied. -/
structure Decodable (config : Config) (t : CompactType) (address : ℕ) (value : t.Value) : Prop where
  limit : ∀ limit, config.limit = some limit → (t.wire value).length ≤ limit
  depth_le : t.depth value ≤ config.depthLimit
  scan : ∀ o, t.scan config.collectionLimit value address ≠ .error o

/-- Without maps, an input is accepted exactly if it is the wire of a value within the limits. -/
lemma deserialize_eq_ok_iff (haccepted : t.Accepted) (hmap : t.MapFree)
    (hreject : config.trailing = .reject) :
    deserialize config t address input = .ok value ↔
      t.Built value ∧ t.wire value = input.elems ∧ Decodable config t address value := by
  have hlimitEnd : ∀ limit, config.limit = some limit → limit < input.elems.length →
      (CompactCursor.new address input config).limitEnd = some limit := by
    intro limit hlimit hlt
    simp [CompactCursor.new, hlimit, Option.filter, hlt]
  have hnil : Tape.Here (CompactCursor.new address input config) ([] : List UInt8) := by
    refine ⟨slice_eq_some.mpr ⟨Nat.le_refl _, Nat.zero_le _, by simp⟩, fun l _ => Nat.zero_le l⟩
  rw [deserialize_eq_ok]
  constructor
  · rintro ⟨c, hdecode, hend⟩
    obtain ⟨hbuilt, hhere, rfl, hdepth⟩ :=
      t.sound haccepted hmap _ hnil (Nat.zero_le _) value c hdecode
    have hlength : (t.wire value).length = input.elems.length := by
      have := hend hreject
      rwa [show (Tape.advance (CompactCursor.new address input config) (t.wire value).length).position
        = (t.wire value).length from Nat.zero_add _] at this
    have hwire : t.wire value = input.elems := by
      obtain ⟨-, -, htake⟩ := slice_eq_some.mp hhere.1
      have hzero : (CompactCursor.new address input config).position = 0 := rfl
      rw [hzero, Nat.zero_add, Nat.sub_zero, List.drop_zero, hlength] at htake
      exact htake.symm.trans (List.take_length)
    have hdepth' : t.depth value ≤ config.depthLimit := by
      rwa [show (CompactCursor.new address input config).depth = 0 from rfl, Nat.zero_add] at hdepth
    refine ⟨hbuilt, hwire, ?_, hdepth', ?_⟩
    · intro limit hlimit
      by_contra hlt
      have hle := hhere.2 limit (hlimitEnd limit hlimit (hlength ▸ Nat.lt_of_not_le hlt))
      rw [show (CompactCursor.new address input config).position = 0 from rfl, Nat.zero_add] at hle
      exact hlt hle
    · intro o hscan
      have hmeets := meets_new haccepted hbuilt.1 hhere hdepth'
      rw [hscan] at hmeets
      rcases o with l | -
      · obtain ⟨u, -, herr⟩ := hmeets
        rw [hdecode] at herr
        cases herr
      · rw [Meets, hdecode] at hmeets
        cases hmeets
  · rintro ⟨⟨hallocated, hcontiguous⟩, hwire, hlimit, hdepth, hscan⟩
    have hhere : Tape.Here (CompactCursor.new address input config) (t.wire value) :=
      hwire ▸ here_new fun limit hl => hwire ▸ hlimit limit hl
    have hmeets := meets_new haccepted hallocated hhere hdepth
    rcases hresult : t.scan config.collectionLimit value address with o | stop
    · exact absurd hresult (hscan o)
    · rw [hresult] at hmeets
      obtain ⟨-, hdecode⟩ := hmeets
      rw [hcontiguous] at hdecode
      refine ⟨_, hdecode, fun _ => ?_⟩
      rw [← hwire]
      exact Nat.zero_add _

end Inputs

/-- Without maps, what an accepted input decodes to is serialized to that input exactly where the
encoder does not count a byte slice beyond the depth limit; and no other input decodes to the
same. -/
theorem compact_canonical_iff [Platform] (config : Config) (hreject : config.trailing = .reject)
    (e : Encodable) (hmap : e.type.MapFree) (address : ℕ) (input : Slice 1 UInt8) :
    ((∀ value, deserialize config e.type address input = .ok value →
        serialize config e.type value = .ok input.elems) ↔
      ∀ value, e.type.Built value → e.type.wire value = input.elems →
        Decodable config e.type address value → e.type.nesting value ≤ config.depthLimit) ∧
    ∀ (other : ℕ) (bytes : Slice 1 UInt8) value,
      deserialize config e.type address input = .ok value →
        deserialize config e.type other bytes = .ok value → bytes.elems = input.elems := by
  refine ⟨⟨fun hround value hbuilt hwire hdecodable => ?_, fun hnesting value hok => ?_⟩, ?_⟩
  · have hok := (deserialize_eq_ok_iff e.accepted hmap hreject).mpr ⟨hbuilt, hwire, hdecodable⟩
    exact ((serialize_eq_ok e.accepted hbuilt.1).mp (hround value hok)).1.nesting_le
  · obtain ⟨hbuilt, hwire, hdecodable⟩ := (deserialize_eq_ok_iff e.accepted hmap hreject).mp hok
    refine (serialize_eq_ok e.accepted hbuilt.1).mpr ⟨⟨hdecodable.limit, ?_, ?_⟩, hwire.symm⟩
    · rw [hwire]
      exact (Nat.one_mul _).symm.trans_le input.length_le
    · exact hnesting value hbuilt hwire hdecodable
  · intro other bytes value hok hok'
    obtain ⟨-, hwire, -⟩ := (deserialize_eq_ok_iff e.accepted hmap hreject).mp hok
    obtain ⟨-, hwire', -⟩ := (deserialize_eq_ok_iff e.accepted hmap hreject).mp hok'
    exact hwire'.symm.trans hwire

section Samples

attribute [local instance] Platform.sample

/-- `&[u8]`. -/
def byteSlice : Encodable where
  type := .scalar .bytes
  accepted := trivial

lemma length_emptyInput : 1 * ([0] : List UInt8).length ≤ isizeMax := by decide

/-- An empty collection. -/
def emptyInput : Slice 1 UInt8 := ⟨[0], length_emptyInput⟩

theorem canonical_bytes :
    serialize .standard byteSlice.type ([] : List UInt8) = .ok emptyInput.elems := by
  have hround := (compact_canonical_iff .standard rfl byteSlice trivial 0 emptyInput).1.mpr
    fun _ _ _ _ => (by decide : 1 ≤ Config.standard.depthLimit)
  exact hround ([] : List UInt8) rfl

/-- The decoder opens no collection for a byte slice. -/
theorem canonical_slice_depth :
    deserialize (Config.standard.withDepthLimit 0) byteSlice.type 0 emptyInput =
        .ok ([] : List UInt8) ∧
      serialize (Config.standard.withDepthLimit 0) byteSlice.type ([] : List UInt8) =
        .err (.custom "compact encode nesting depth limit exceeded") :=
  ⟨rfl, by decide +kernel⟩

end Samples

end RustBinary.Compact
