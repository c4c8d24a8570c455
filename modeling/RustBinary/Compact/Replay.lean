import RustBinary.Compact.Bulk

/-!
# What stops the decoder of a value

The decoder, on the wire of a value.  In the order of the wire, the first collection above the
collection limit stops it with an error, and the first copy into an empty vector aborts it; where
neither is met, it comes back with the value.
-/

namespace RustBinary.Compact

open Lib Lib.Act CompactCursor

/-! ## Scans -/

/-- What stops the decoder. -/
inductive Obstacle where
  | collection (limit : ℕ)
  | copy
deriving DecidableEq, Repr

/-- The address behind a piece of the wire from its address, or what stops the decoder there. -/
abbrev Scan : Type := ℕ → Except Obstacle ℕ

/-- Over `n` bytes. -/
def pass (n : ℕ) : Scan := fun address => .ok (address + n)

def Scan.before (first next : Scan) : Scan := fun address =>
  match first address with
  | .ok address => next address
  | .error e => .error e

lemma Scan.before_assoc (a b c : Scan) : (a.before b).before c = a.before (b.before c) := by
  funext address
  simp only [before]
  rcases a address with e | next
  · rfl
  · rfl

/-- Over the length of a collection. -/
def scanLength (limit : Option ℕ) (len : ℕ) : Scan :=
  match limit with
  | some l => if l < len then fun _ => .error (.collection l) else pass (encodeVarintLe len).length
  | none => pass (encodeVarintLe len).length

def scanEach {α : Type} (scan : α → Scan) : List α → Scan
  | [] => pass 0
  | a :: as => (scan a).before (scanEach scan as)

def Scalar.scanVec [Platform] (s : Scalar) (values : List s.Value) : Scan := fun address =>
  if s.Copied address ∧ 0 < values.length then .error .copy
  else pass (values.flatMap s.wire).length address

section Types

variable [Platform]

/-- The elements of a vector, with `scan` for those that are not primitive. -/
def CompactType.scanVec : (t : CompactType) → (t.Value → Scan) → List t.Value → Scan
  | .scalar s, _, values => s.scanVec values
  | _, scan, values => scanEach scan values

mutual

def CompactType.scan (limit : Option ℕ) : (t : CompactType) → t.Value → Scan
  | .scalar s, value => pass (s.wire value).length
  | .option _, none => pass 1
  | .option t, some value => (pass 1).before (t.scan limit value)
  | .vec t, values => (scanLength limit (List.length values)).before
      (t.scanVec (t.scan limit) values)
  | .deque t, (head, tail) => (scanLength limit (head ++ tail).length).before
      (scanEach (t.scan limit) (head ++ tail))
  | .array _ t, values => scanEach (t.scan limit) values
  | .map _ key value, entries => (scanLength limit (List.length entries)).before
      (scanEach (fun entry => (key.scan limit entry.1).before (value.scan limit entry.2)) entries)
  | .struct fields, values => fields.scan limit values
  | .enum variants, value => (pass (encodeVarintLe (variants.index value)).length).before
      (variants.scan limit value)

def Fields.scan (limit : Option ℕ) : (fields : Fields) → fields.Values → Scan
  | .nil, _ => pass 0
  | .cons t rest, (value, values) => (t.scan limit value).before (rest.scan limit values)

def Variants.scan (limit : Option ℕ) : (variants : Variants) → variants.Value → Scan
  | .cons fields _, .inl values => fields.scan limit values
  | .cons _ rest, .inr value => rest.scan limit value

end

end Types

/-! ## Depth -/

mutual

/-- How deep the collections of a value are nested for the decoder, for which a byte slice is no
collection. -/
def CompactType.depth : (t : CompactType) → t.Value → ℕ
  | .scalar _, _ => 0
  | .option _, none => 0
  | .option t, some value => t.depth value
  | .vec t, values => largest (List.map t.depth values) + 1
  | .deque t, (head, tail) => largest ((head ++ tail).map t.depth) + 1
  | .array _ t, values => largest (List.map t.depth values)
  | .map _ key value, entries =>
      largest (List.map (fun entry => max (key.depth entry.1) (value.depth entry.2)) entries) + 1
  | .struct fields, values => fields.depth values
  | .enum variants, value => variants.depth value

def Fields.depth : (fields : Fields) → fields.Values → ℕ
  | .nil, _ => 0
  | .cons t rest, (value, values) => max (t.depth value) (rest.depth values)

def Variants.depth : (variants : Variants) → variants.Value → ℕ
  | .cons fields _, .inl values => fields.depth values
  | .cons _ rest, .inr value => rest.depth value

end

lemma largest_le_largest {α : Type} {f g : α → ℕ} {as : List α} (h : ∀ a ∈ as, f a ≤ g a) :
    largest (as.map f) ≤ largest (as.map g) := by
  induction as with
  | nil => exact Nat.le_refl _
  | cons a as ih =>
      obtain ⟨ha, has⟩ := List.forall_mem_cons.mp h
      exact max_le_max ha (ih has)

mutual

lemma CompactType.depth_le : (t : CompactType) → (value : t.Value) → t.depth value ≤ t.nesting value
  | .scalar _, _ => Nat.zero_le _
  | .option _, none => Nat.le_refl _
  | .option t, some value => CompactType.depth_le t value
  | .vec t, _ => Nat.succ_le_succ (largest_le_largest fun value _ => CompactType.depth_le t value)
  | .deque t, (_, _) =>
      Nat.succ_le_succ (largest_le_largest fun value _ => CompactType.depth_le t value)
  | .array _ t, _ => largest_le_largest fun value _ => CompactType.depth_le t value
  | .map _ key value, _ => Nat.succ_le_succ (largest_le_largest fun entry _ =>
      max_le_max (CompactType.depth_le key entry.1) (CompactType.depth_le value entry.2))
  | .struct fields, values => Fields.depth_le fields values
  | .enum variants, value => Variants.depth_le variants value

lemma Fields.depth_le : (fields : Fields) → (values : fields.Values) →
    fields.depth values ≤ fields.nesting values
  | .nil, _ => Nat.le_refl _
  | .cons t rest, (value, values) =>
      max_le_max (CompactType.depth_le t value) (Fields.depth_le rest values)

lemma Variants.depth_le : (variants : Variants) → (value : variants.Value) →
    variants.depth value ≤ variants.nesting value
  | .cons fields _, .inl values => Fields.depth_le fields values
  | .cons _ rest, .inr value => Variants.depth_le rest value

end

/-! ## Replaying a scan -/

section Replays

variable {α β γ : Type} {m : Dec α} {scan next : Scan} {a : α} {b : β} {bs xs ys : List UInt8}
  {n k l : ℕ} {c : CompactCursor} {limit : Option ℕ}

/-- What `m` does where a scan has said what is met. -/
def Meets (m : Dec α) (c : CompactCursor) (a : α) (n : ℕ) : Except Obstacle ℕ → Prop
  | .ok address => address = c.address + c.position + n ∧ m c = (.ok a, Tape.advance c n)
  | .error (.collection l) => ∃ u, u.depth = c.depth ∧ m c = (.err (.collectionLimit l), u)
  | .error .copy => (m c).1 = .panic

/-- On the text `bs`, with room for `n` more collections, `m` does what the scan says, and comes
back with `a` if nothing stops it. -/
def Replays (limit : Option ℕ) (m : Dec α) (scan : Scan) (a : α) (bs : List UInt8) (n : ℕ) : Prop :=
  ∀ c, c.collectionLimit = limit → Tape.Here c bs → c.depth + n ≤ c.depthLimit →
    Meets m c a bs.length (scan (c.address + c.position))

namespace Replays

lemma of_spells {L : α → List UInt8 → Prop} (h : Spells Anywhere m L) (hL : L a bs) (n : ℕ) :
    Replays limit m (pass bs.length) a bs n :=
  fun c _ hhere _ => ⟨rfl, (h c trivial hhere.nil _ _).mpr ⟨bs, hL, hhere, rfl⟩⟩

lemma pure (a : α) (n : ℕ) : Replays limit (pure a : Dec α) (pass 0) a [] n :=
  of_spells (Spells.pure a) ⟨rfl, rfl⟩ n

lemma mono (h : Replays limit m scan a bs n) (hnk : n ≤ k) : Replays limit m scan a bs k :=
  fun c hlimit hhere hdepth => h c hlimit hhere (by omega)

lemma congr (h : Replays limit m scan a bs n) (hscan : scan = next) (hbs : bs = xs) (hn : n = k) :
    Replays limit m next a xs k := hscan ▸ hbs ▸ hn ▸ h

lemma bind {f : α → Dec β} (hm : Replays limit m scan a xs n)
    (hf : Replays limit (f a) next b ys k) :
    Replays limit (m >>= f) (scan.before next) b (xs ++ ys) (max n k) := by
  intro c hlimit hhere hdepth
  obtain ⟨hxs, hys⟩ := (Tape.here_append c xs ys).mp hhere
  have hfirst := hm c hlimit hxs (by omega)
  rw [Scan.before]
  rcases hscan : scan (c.address + c.position) with (⟨l⟩ | ⟨⟩) | address <;> rw [hscan] at hfirst
  · obtain ⟨u, hu, hrun⟩ := hfirst
    exact ⟨u, hu, by rw [bind_run, hrun]⟩
  · change ((m >>= f) c).1 = .panic
    rw [bind_run]
    rcases hrun : m c with ⟨v | e | _ | _, t⟩ <;> rw [Meets, hrun] at hfirst <;> cases hfirst
  · obtain ⟨rfl, hrun⟩ := hfirst
    have hsecond := hf (Tape.advance c xs.length) hlimit hys
      ((Nat.add_le_add_left (Nat.le_max_right n k) _).trans hdepth)
    have haddress : (Tape.advance c xs.length).address + (Tape.advance c xs.length).position
        = c.address + c.position + xs.length := (Nat.add_assoc _ _ _).symm
    rw [haddress] at hsecond
    dsimp only
    generalize next (c.address + c.position + xs.length) = o at hsecond ⊢
    rcases o with (⟨l⟩ | ⟨⟩) | address
    · obtain ⟨u, hu, hnext⟩ := hsecond
      exact ⟨u, hu, by rw [bind_of_ok hrun, hnext]⟩
    · change ((m >>= f) c).1 = .panic
      rw [bind_of_ok hrun]
      exact hsecond
    · obtain ⟨rfl, hnext⟩ := hsecond
      rw [List.length_append]
      refine ⟨?_, ?_⟩
      · rw [haddress, Nat.add_assoc]
      · rw [bind_of_ok hrun, hnext, Tape.advance_advance]

/-- Nothing is read behind the first reader. -/
lemma map (hm : Replays limit m scan a xs n) (f : α → β) :
    Replays limit (m >>= fun a => Pure.pure (f a)) scan (f a) xs n := by
  refine (hm.bind (pure (f a) n)).congr ?_ (List.append_nil xs) (Nat.max_self n)
  funext address
  rw [Scan.before]
  rcases scan address with e | next
  · rfl
  · rfl

/-- A reader of nothing in front. -/
lemma skip {f : α → Dec β} (hm : Replays limit m (pass 0) a [] 0)
    (hf : Replays limit (f a) next b ys k) : Replays limit (m >>= f) next b ys k :=
  (hm.bind hf).congr rfl (List.nil_append ys) (Nat.zero_max k)

lemma decodeTimes {scan : α → Scan} {g : α → β} {m : Dec β} {w : α → List UInt8} {h : α → ℕ}
    {as : List α} (hm : ∀ a ∈ as, Replays limit m (scan a) (g a) (w a) (h a)) :
    Replays limit (decodeTimes m as.length) (scanEach scan as) (as.map g) (as.flatMap w)
      (largest (as.map h)) := by
  induction as with
  | nil => exact pure [] 0
  | cons a as ih =>
      obtain ⟨ha, has⟩ := List.forall_mem_cons.mp hm
      exact ha.bind ((ih has).map (g a :: ·))

/-- A length and a collection. -/
lemma container {elements : ℕ → Dec α} {len : ℕ} (hlen : len ≤ u64Max)
    (h : Replays limit (elements len) scan a bs n) :
    Replays limit (decodeContainer elements) ((scanLength limit len).before scan) a
      (encodeVarintLe len ++ bs) (n + 1) := by
  intro c hlimit hhere hdepth
  obtain ⟨hhead, htail⟩ := (Tape.here_append c (encodeVarintLe len) bs).mp hhere
  have hread := (spells_readLength c trivial hhere.nil _ _).mpr ⟨_, ⟨hlen, rfl⟩, hhead, rfl⟩
  set u := Tape.advance c (encodeVarintLe len).length with hu
  have hrun : decodeContainer elements c =
      (do enterContainer len; (elements len).leaving exitContainer) u := bind_of_ok hread
  rcases enterContainer_cases u len with ⟨l, hl, hlt, henter⟩ | ⟨hle, -⟩ | ⟨hmay, henter⟩
  · have hscan : scanLength limit len = fun _ => .error (.collection l) := by
      rw [← hlimit, show c.collectionLimit = some l from hl, scanLength, if_pos hlt]
    rw [hscan]
    exact ⟨u, rfl, by rw [hrun, bind_run, henter]⟩
  · exact absurd hle (by
      change ¬ c.depthLimit ≤ c.depth
      omega)
  · have hscan : scanLength limit len = pass (encodeVarintLe len).length := by
      rw [← hlimit]
      rcases hl : c.collectionLimit with _ | l
      · rfl
      · exact if_neg (Nat.not_lt.mpr (hmay.collection l hl))
    have hinside := h u.entered hlimit htail (by
      change c.depth + 1 + n ≤ c.depthLimit
      omega)
    have haddress : u.entered.address + u.entered.position
        = c.address + c.position + (encodeVarintLe len).length := (Nat.add_assoc _ _ _).symm
    rw [haddress] at hinside
    rw [hscan, Scan.before, pass]
    dsimp only
    rw [bind_of_ok henter] at hrun
    generalize scan (c.address + c.position + (encodeVarintLe len).length) = o at hinside ⊢
    rcases o with (⟨l⟩ | ⟨⟩) | address
    · obtain ⟨v, hv, helements⟩ := hinside
      have hexit : exitContainer v = (.ok (), v.exited) :=
        exitContainer_of (hv ▸ Nat.succ_ne_zero c.depth)
      refine ⟨v.exited, ?_, ?_⟩
      · rw [CompactCursor.exited, hv]
        rfl
      · rw [hrun, leaving_of_err helements, bind_of_ok hexit]
        rfl
    · change (decodeContainer elements c).1 = .panic
      rcases helements : elements len u.entered with ⟨v | e | _ | _, t⟩ <;>
        rw [Meets, helements] at hinside <;> cases hinside
      rw [hrun, leaving_of_panic helements]
    · obtain ⟨rfl, helements⟩ := hinside
      have hexit : exitContainer (Tape.advance u.entered bs.length) =
          (.ok (), (Tape.advance u.entered bs.length).exited) :=
        exitContainer_of (Nat.succ_ne_zero c.depth)
      rw [List.length_append]
      refine ⟨?_, ?_⟩
      · rw [haddress, Nat.add_assoc]
      · rw [hrun, leaving_of_ok helements, bind_of_ok hexit]
        rw [exited_advance, hu, Tape.advance_advance]
        rfl

lemma tryReserve {size count : ℕ} (h : size * count ≤ isizeMax) :
    Replays limit (tryReserve size count) (pass 0) () [] 0 :=
  of_spells (spells_tryReserve size count) ⟨h, rfl⟩ 0

variable [Platform]

lemma scanVec {s : Scalar} {values : List s.Value} (hsize : s.size * values.length ≤ isizeMax)
    (hall : Every s.Allocated values) (n : ℕ) :
    Replays limit (s.decodeVec values.length) (s.scanVec values) values (values.flatMap s.wire)
      n := by
  intro c _ hhere _
  have hgather := (s.spells_gather values.length c trivial hhere.nil values _).mpr
    ⟨_, ⟨hsize, rfl, hall, rfl⟩, hhere, rfl⟩
  rw [Scalar.scanVec]
  split
  · next hcopied =>
      change (s.decodeVec values.length c).1 = .panic
      rw [s.decodeVec_run, bind_of_ok hgather, if_pos hcopied.1, copyFromSlice_nil,
        if_neg (List.length_pos_iff.mp hcopied.2)]
  · next hcopied =>
      refine ⟨rfl, Scalar.decodeVec_eq_ok.mpr ⟨hgather, fun h => ?_⟩⟩
      exact List.length_eq_zero_iff.mp (Nat.eq_zero_of_not_pos fun hpos => hcopied ⟨h, hpos⟩)

/-- A key behind others with which it does not clash is inserted behind them. -/
lemma insertNew_append {kind : MapKind} {key : CompactType} {V : Type}
    {entries : List (key.Value × V)} {k : key.Value} {v : V}
    (h : Distinct kind key (entries.map Prod.fst ++ [k])) :
    insertNew kind key k v entries = some (entries ++ [(k, v)]) := by
  cases kind with
  | tree =>
      change insertSorted (Platform.cmp key) k v entries = _
      induction entries with
      | nil => rfl
      | cons entry entries ih =>
          obtain ⟨hfirst, hrest⟩ := List.pairwise_cons.mp h
          have hlt : Platform.cmp key entry.1 k = .lt := hfirst k (by simp)
          have hgt : Platform.cmp key k entry.1 = .gt := by
            rw [Platform.cmp_swap, hlt]
            rfl
          rw [insertSorted, hgt]
          dsimp only
          rw [ih hrest]
          rfl
  | hash =>
      have hnone : (entries.any fun entry => Platform.same key entry.1 k) = false := by
        rw [List.any_eq_false]
        intro entry hentry
        have hsame := (List.pairwise_append.mp h).2.2 entry.1
          (List.mem_map_of_mem hentry) k (List.mem_singleton_self k)
        rw [hsame]
        exact Bool.false_ne_true
      change (if entries.any fun entry => Platform.same key entry.1 k then none
        else some (entries ++ [(k, v)])) = _
      rw [hnone]
      rfl

lemma distinct_of_append {kind : MapKind} {key : CompactType} {keys more : List key.Value}
    (h : Distinct kind key (keys ++ more)) : Distinct kind key keys := by
  cases kind with
  | tree => exact (List.pairwise_append.mp h).1
  | hash => exact (List.pairwise_append.mp h).1

/-- The entries of a map, behind those that have been read. -/
lemma decodeEntries {kind : MapKind} {key : CompactType} {V : Type} {decodeKey : Dec key.Value}
    {decodeValue : Dec V} {K' V' : Type} {f : K' → key.Value} {g : V' → V} {scanKey : K' → Scan}
    {scanValue : V' → Scan} {w : K' → List UInt8} {w' : V' → List UInt8} {h : K' → ℕ} {h' : V' → ℕ}
    {entries : List (K' × V')} (out : List (key.Value × V))
    (hkeys : Distinct kind key (out.map Prod.fst ++ entries.map fun entry => f entry.1))
    (hentries : ∀ entry ∈ entries,
      Replays limit decodeKey (scanKey entry.1) (f entry.1) (w entry.1) (h entry.1) ∧
        Replays limit decodeValue (scanValue entry.2) (g entry.2) (w' entry.2) (h' entry.2)) :
    Replays limit (decodeEntries kind key decodeKey decodeValue entries.length out)
      (scanEach (fun entry => (scanKey entry.1).before (scanValue entry.2)) entries)
      (out ++ entries.map fun entry => (f entry.1, g entry.2))
      (entries.flatMap fun entry => w entry.1 ++ w' entry.2)
      (largest (entries.map fun entry => max (h entry.1) (h' entry.2))) := by
  induction entries generalizing out with
  | nil =>
      rw [List.map_nil, List.append_nil]
      exact pure out 0
  | cons entry entries ih =>
      obtain ⟨⟨hkey, hvalue⟩, hrest⟩ := List.forall_mem_cons.mp hentries
      have hinsert : insertNew kind key (f entry.1) (g entry.2) out =
          some (out ++ [(f entry.1, g entry.2)]) := by
        rw [List.map_cons, ← List.singleton_append, ← List.append_assoc] at hkeys
        exact insertNew_append (distinct_of_append hkeys)
      have hnext := ih (out ++ [(f entry.1, g entry.2)]) (by simpa using hkeys) hrest
      have hnew : Replays limit (Act.okOr (insertNew kind key (f entry.1) (g entry.2) out)
          (Error.custom "duplicate map key")) (pass 0) (out ++ [(f entry.1, g entry.2)]) [] 0 := by
        rw [hinsert]
        exact pure _ 0
      have hloop := Replays.skip (f := fun out => Compact.decodeEntries kind key decodeKey decodeValue
        entries.length out) hnew hnext
      have hentry := Replays.bind (f := fun k => do
        let v ← decodeValue
        let out ← Act.okOr (insertNew kind key k v out) (.custom "duplicate map key")
        Compact.decodeEntries kind key decodeKey decodeValue entries.length out) hkey
          (hvalue.bind hloop)
      rw [List.append_assoc] at hentry
      refine hentry.congr ?_ ?_ ?_
      · rw [scanEach, Scan.before_assoc]
      · rw [List.flatMap_cons, List.append_assoc]
      · exact (max_assoc _ _ _).symm

end Replays

end Replays

/-! ## The decoder replays the scan of a value -/

section Types

variable [Platform] {limit : Option ℕ}

omit [Platform] in
lemma spells_decodeVariantIndex : Spells Anywhere decodeVariantIndex fun index bs =>
    index < 2 ^ 32 ∧ bs = encodeVarintLe index := by
  refine (Spells.filter (f := fun index => index) (p := fun index => index < 2 ^ 32)
    spells_readVarint).congr fun index bs => ?_
  constructor
  · rintro ⟨index, ⟨-, rfl⟩, hindex, rfl⟩
    exact ⟨hindex, rfl⟩
  · rintro ⟨hindex, rfl⟩
    exact ⟨index, ⟨by rw [u64Max]; omega, rfl⟩, hindex, rfl⟩

lemma Replays.elements {t : CompactType} {scan : t.Value → Scan} {values : List t.Value}
    (hsize : Platform.size t * values.length ≤ isizeMax) (hall : Every t.Allocated values)
    (h : ∀ value ∈ values, Replays limit t.decode (scan value) (t.contiguous value) (t.wire value)
      (t.depth value)) :
    Replays limit (t.decodeVec t.decode values.length) (t.scanVec scan values)
      (values.map t.contiguous) (values.flatMap t.wire) (largest (values.map t.depth)) := by
  cases t with
  | scalar s =>
      rw [Platform.size_scalar] at hsize
      have hmap : values.map (CompactType.scalar s).contiguous = values := List.map_id values
      rw [hmap]
      exact scanVec hsize hall _
  | _ => exact (tryReserve hsize).skip (decodeTimes h)

lemma distinct_contiguous {kind : MapKind} {key : CompactType} {V : Type}
    {entries : List (key.Value × V)} (h : Distinct kind key (entries.map Prod.fst)) :
    Distinct kind key (entries.map fun entry => key.contiguous entry.1) := by
  cases kind with
  | tree =>
      refine List.pairwise_map.mpr ((List.pairwise_map.mp h).imp fun hlt => ?_)
      rwa [Platform.cmp_contiguous]
  | hash =>
      refine List.pairwise_map.mpr ((List.pairwise_map.mp h).imp fun hne => ?_)
      rwa [Platform.same_contiguous]

mutual

lemma CompactType.replays : (t : CompactType) → t.Accepted → (value : t.Value) →
    t.Allocated value → Replays limit t.decode (t.scan limit value) (t.contiguous value)
      (t.wire value) (t.depth value)
  | .scalar s, _, value, h => .of_spells s.spells ⟨h, rfl⟩ _
  | .option t, _, none, _ =>
      (Replays.bind (f := fun present => if present then do
        let value ← t.decode
        pure (some value) else pure none) (.of_spells spells_readBool (a := false) rfl 0)
          (.pure none 0)).congr rfl rfl rfl
  | .option t, haccepted, some value, h =>
      (Replays.bind (f := fun present => if present then do
        let value ← t.decode
        pure (some value) else pure none) (.of_spells spells_readBool (a := true) rfl 0)
          ((CompactType.replays t haccepted value (h value (by simp))).map some)).congr rfl rfl
            (Nat.zero_max _)
  | .vec t, haccepted, values, h =>
      .container h.1.1 (.elements h.1.2 h.2 fun value hvalue =>
        CompactType.replays t haccepted value (h.2 value hvalue))
  | .deque t, haccepted, (head, tail), h => by
      have hvalues := Replays.decodeTimes fun value hvalue =>
        CompactType.replays t haccepted value (h.2 value hvalue)
      refine (Replays.container h.1.1 ((Replays.tryReserve h.1.2).skip
        (hvalues.map fun values => (values, [])))).congr rfl ?_ rfl
      rw [CompactType.wire, List.length_append]
  | .array n t, haccepted, values, h => by
      have hvalues := Replays.decodeTimes fun value hvalue =>
        CompactType.replays t haccepted.2 value (h.2 value hvalue)
      rw [show List.length values = n from h.1] at hvalues
      exact hvalues
  | .map kind key value, haccepted, entries, h => by
      have hreserve : Replays limit (reserveMap kind key value (List.length entries)) (pass 0) ()
          [] 0 := by
        have hroom : ¬ (kind = .hash ∧ Platform.reserves key value (List.length entries) = false) :=
          fun hfull => Bool.false_ne_true (hfull.2.symm.trans (h.2.1 hfull.1))
        rw [reserveMap, if_neg hroom]
        exact .pure () 0
      have hentries := Replays.decodeEntries [] (distinct_contiguous h.2.2.1)
        fun entry hentry => ⟨CompactType.replays key haccepted.1 entry.1 (h.2.2.2 entry hentry).1,
          CompactType.replays value haccepted.2 entry.2 (h.2.2.2 entry hentry).2⟩
      exact .container h.1 (hreserve.skip hentries)
  | .struct fields, haccepted, values, h => Fields.replays fields haccepted values h
  | .enum variants, haccepted, value, h => by
      have hindex := (variants.index_lt value).trans_le haccepted.1
      exact ((Replays.of_spells spells_decodeVariantIndex ⟨hindex, rfl⟩ 0).bind
        (Variants.replays variants haccepted.2 value h)).congr rfl rfl (Nat.zero_max _)

lemma Fields.replays : (fields : Fields) → fields.Accepted → (values : fields.Values) →
    fields.Allocated values → Replays limit fields.decode (fields.scan limit values)
      (fields.contiguous values) (fields.wire values) (fields.depth values)
  | .nil, _, _, _ => .pure () 0
  | .cons t rest, haccepted, (value, values), h =>
      (CompactType.replays t haccepted.1 value h.1).bind
        ((Fields.replays rest haccepted.2 values h.2).map fun values => (t.contiguous value, values))

lemma Variants.replays : (variants : Variants) → variants.Accepted → (value : variants.Value) →
    variants.Allocated value → Replays limit (variants.decode (variants.index value))
      (variants.scan limit value) (variants.contiguous value) (variants.wire value)
      (variants.depth value)
  | .cons fields rest, haccepted, .inl values, h =>
      (Fields.replays fields haccepted.1 values h).map
        fun values => (.inl values : fields.Values ⊕ rest.Value)
  | .cons fields rest, haccepted, .inr value, h =>
      (Variants.replays rest haccepted.2 value h).map
        fun value => (.inr value : fields.Values ⊕ rest.Value)

end

end Types

end RustBinary.Compact
