import RustBinary.Lib.Outcome
import RustBinary.Lib.Sketch
import Mathlib.Algebra.Group.Pi.Basic

/-!
# Invertible Bloom lookup tables

The cells of a table with insertion, deletion and subtraction.  Counts are 32 bits wide and
wrap; the sums are exclusive ors.

The cells are a commutative group, in which insertion adds the contribution of an element at
its positions and deletion takes it away, so that the cells of a table are a linear sketch of
what has been put into it (`cell_encodeSet`).
-/

namespace RustBinary.Ibl

open Lib Lib.Outcome

/-- `Error::Iblt` with its message. -/
inductive Error where
  | iblt (message : String)
deriving DecidableEq, Repr

/-- Seeds for the cell-position hashes. -/
def positionSeeds : List UInt64 := [0x9e3779b97f4a7c15, 0xbf58476d1ce4e5b9, 0x94d049bb133111eb]

/-- Deterministic splitmix64. -/
def splitmix64 (value : UInt64) : UInt64 :=
  let value := value + 0x9e3779b97f4a7c15
  let value := (value ^^^ (value >>> 30)) * 0xbf58476d1ce4e5b9
  let value := (value ^^^ (value >>> 27)) * 0x94d049bb133111eb
  value ^^^ (value >>> 31)

/-- One cell: an XOR-accumulating bucket. -/
@[ext]
structure Cell where
  count : Int32
  keySum : UInt64
  valueSum : UInt64
  hashSum : UInt64
deriving DecidableEq, Repr

/-- One recovered difference entry. -/
structure IbltEntry where
  key : UInt64
  value : UInt64
  presentInSelf : Bool
deriving DecidableEq, Repr

/-- An element of a set. -/
abbrev Pair : Type := UInt64 × UInt64

/-- A table; it has at least one cell. -/
structure Iblt where
  cells : List Cell
  pos : 0 < cells.length

/-! ## Cells -/

namespace Cell

instance : Zero Cell := ⟨⟨0, 0, 0, 0⟩⟩

instance : Add Cell :=
  ⟨fun a b => ⟨a.count + b.count, a.keySum ^^^ b.keySum, a.valueSum ^^^ b.valueSum,
    a.hashSum ^^^ b.hashSum⟩⟩

instance : Sub Cell :=
  ⟨fun a b => ⟨a.count - b.count, a.keySum ^^^ b.keySum, a.valueSum ^^^ b.valueSum,
    a.hashSum ^^^ b.hashSum⟩⟩

instance : Neg Cell := ⟨fun a => ⟨-a.count, a.keySum, a.valueSum, a.hashSum⟩⟩

instance : AddCommGroup Cell where
  add_assoc a b c := by
    ext1
    · exact Int32.add_assoc _ _ _
    · exact UInt64.xor_assoc _ _ _
    · exact UInt64.xor_assoc _ _ _
    · exact UInt64.xor_assoc _ _ _
  zero_add a := by
    ext1
    · exact Int32.zero_add _
    · exact UInt64.zero_xor
    · exact UInt64.zero_xor
    · exact UInt64.zero_xor
  add_zero a := by
    ext1
    · exact Int32.add_zero _
    · exact UInt64.xor_zero
    · exact UInt64.xor_zero
    · exact UInt64.xor_zero
  add_comm a b := by
    ext1
    · exact Int32.add_comm _ _
    · exact UInt64.xor_comm _ _
    · exact UInt64.xor_comm _ _
    · exact UInt64.xor_comm _ _
  neg_add_cancel a := by
    ext1
    · exact Int32.add_left_neg _
    · exact UInt64.xor_self
    · exact UInt64.xor_self
    · exact UInt64.xor_self
  sub_eq_add_neg a b := by
    ext1
    · exact Int32.sub_eq_add_neg _ _
    · rfl
    · rfl
    · rfl
  nsmul := nsmulRec
  zsmul := zsmulRec

/-- A cell with one element. -/
def single (key value : UInt64) : Cell := ⟨1, key, value, splitmix64 key⟩

end Cell

/-! ## Tables -/

/-- The cell of `key` under `seed`. -/
def position (key seed : UInt64) (numCells : ℕ) : ℕ := (splitmix64 (key ^^^ seed)).toNat % numCells

/-- The three cells of `key`, one after the other. -/
def touch (f : Cell → Cell) (key : UInt64) (cells : List Cell) : List Cell :=
  positionSeeds.foldl (fun cells seed => cells.modify (position key seed cells.length) f) cells

lemma length_touch (f : Cell → Cell) (key : UInt64) (cells : List Cell) :
    (touch f key cells).length = cells.length := by
  rw [touch]
  generalize positionSeeds = seeds
  induction seeds generalizing cells with
  | nil => rfl
  | cons seed seeds ih => rw [List.foldl_cons, ih, List.length_modify]

namespace Iblt

/-- `Iblt::new`. -/
def new (numCells : ℕ) : Iblt where
  cells := List.replicate (max numCells 1) 0
  pos := by
    rw [List.length_replicate]
    omega

def numCells (t : Iblt) : ℕ := t.cells.length

/-- `is_empty`. -/
def isEmpty (t : Iblt) : Bool := t.cells.all fun cell => cell.count = 0

/-- `insert`. -/
def insert (t : Iblt) (key value : UInt64) : Iblt where
  cells := touch (fun cell =>
    { count := cell.count + 1
      keySum := cell.keySum ^^^ key
      valueSum := cell.valueSum ^^^ value
      hashSum := cell.hashSum ^^^ splitmix64 key }) key t.cells
  pos := by
    rw [length_touch]
    exact t.pos

/-- `delete`. -/
def delete (t : Iblt) (key value : UInt64) : Iblt where
  cells := touch (fun cell =>
    { count := cell.count - 1
      keySum := cell.keySum ^^^ key
      valueSum := cell.valueSum ^^^ value
      hashSum := cell.hashSum ^^^ splitmix64 key }) key t.cells
  pos := by
    rw [length_touch]
    exact t.pos

/-- `subtract`. -/
def subtract (t other : Iblt) : Outcome Error Iblt :=
  if h : t.cells.length = other.cells.length then
    .ok
      { cells := t.cells.zipWith (· - ·) other.cells
        pos := by
          rw [List.length_zipWith, ← h, Nat.min_self]
          exact t.pos }
  else .err (.iblt "IBLT size mismatch in subtract")

end Iblt

/-- `encode_set`. -/
def encodeSet (entries : List Pair) (numCells : ℕ) : Iblt :=
  entries.foldl (fun t entry => t.insert entry.1 entry.2) (Iblt.new numCells)

/-! ## The cells as a sketch -/

/-- What an element contributes to the cells. -/
def contribution (numCells : ℕ) (entry : Pair) : ℕ → Cell := fun q =>
  (positionSeeds.map fun seed =>
    if position entry.1 seed numCells = q then Cell.single entry.1 entry.2 else 0).sum

/-- The cell at `q`, and zero behind the cells. -/
def Iblt.cell (t : Iblt) : ℕ → Cell := fun q => t.cells.getD q 0

lemma position_lt (key seed : UInt64) {numCells : ℕ} (h : 0 < numCells) :
    position key seed numCells < numCells := Nat.mod_lt _ h

lemma getD_modify {cells : List Cell} {p q : ℕ} (hp : p < cells.length) (d : Cell) :
    (cells.modify p (· + d)).getD q 0 = cells.getD q 0 + if p = q then d else 0 := by
  rw [List.getD_eq_getElem?_getD, List.getElem?_modify, List.getD_eq_getElem?_getD]
  split
  · next h =>
      subst h
      rw [List.getElem?_eq_getElem hp]
      rfl
  · cases cells[q]? with
    | none => exact (add_zero (0 : Cell)).symm
    | some c => exact (add_zero c).symm

/-- Adding to the cells of a key. -/
lemma getD_touch {cells : List Cell} (hpos : 0 < cells.length) (d : Cell) (key : UInt64) (q : ℕ) :
    (touch (· + d) key cells).getD q 0 = cells.getD q 0 +
      (positionSeeds.map fun seed =>
        if position key seed cells.length = q then d else 0).sum := by
  rw [touch]
  generalize positionSeeds = seeds
  induction seeds generalizing cells with
  | nil => exact (add_zero _).symm
  | cons seed seeds ih =>
      have hlen : (cells.modify (position key seed cells.length) (· + d)).length = cells.length :=
        List.length_modify ..
      rw [List.foldl_cons, ih (by rw [hlen]; exact hpos), hlen,
        getD_modify (position_lt key seed hpos), List.map_cons, List.sum_cons, add_assoc]

lemma contribution_neg (numCells : ℕ) (entry : Pair) (q : ℕ) :
    (positionSeeds.map fun seed =>
      if position entry.1 seed numCells = q then -Cell.single entry.1 entry.2 else 0).sum =
        -contribution numCells entry q := by
  rw [contribution]
  generalize positionSeeds = seeds
  induction seeds with
  | nil => exact neg_zero.symm
  | cons seed seeds ih =>
      rw [List.map_cons, List.sum_cons, List.map_cons, List.sum_cons, ih, neg_add]
      congr 1
      split
      · rfl
      · exact neg_zero.symm

@[simp] lemma numCells_insert (t : Iblt) (key value : UInt64) :
    (t.insert key value).numCells = t.numCells := length_touch ..

@[simp] lemma numCells_delete (t : Iblt) (key value : UInt64) :
    (t.delete key value).numCells = t.numCells := length_touch ..

/-- `insert` adds a contribution. -/
lemma cell_insert (t : Iblt) (key value : UInt64) :
    (t.insert key value).cell = t.cell + contribution t.numCells (key, value) :=
  funext fun q => getD_touch t.pos (Cell.single key value) key q

/-- `delete` takes a contribution away. -/
lemma cell_delete (t : Iblt) (key value : UInt64) :
    (t.delete key value).cell = t.cell - contribution t.numCells (key, value) := by
  have hfun : (fun cell : Cell =>
      (⟨cell.count - 1, cell.keySum ^^^ key, cell.valueSum ^^^ value,
        cell.hashSum ^^^ splitmix64 key⟩ : Cell)) = (· + -Cell.single key value) :=
    funext fun cell => Cell.ext (Int32.sub_eq_add_neg _ _) rfl rfl rfl
  have hcells : (t.delete key value).cells = touch (· + -Cell.single key value) key t.cells :=
    congrArg (fun f => touch f key t.cells) hfun
  funext q
  rw [Iblt.cell, hcells, getD_touch t.pos, Pi.sub_apply, sub_eq_add_neg]
  exact congrArg _ (contribution_neg t.numCells (key, value) q)

lemma numCells_encodeSet (entries : List Pair) (n : ℕ) :
    (encodeSet entries n).numCells = max n 1 := by
  have hfold : ∀ t : Iblt,
      (entries.foldl (fun t entry => t.insert entry.1 entry.2) t).numCells = t.numCells := by
    induction entries with
    | nil => exact fun _ => rfl
    | cons entry entries ih =>
        intro t
        rw [List.foldl_cons, ih, numCells_insert]
  rw [encodeSet, hfold]
  exact List.length_replicate

/-- The cells of an encoded set are the sketch of the set. -/
lemma cell_encodeSet (entries : List Pair) (n : ℕ) :
    (encodeSet entries n).cell = Sketch.sketch (contribution (max n 1)) entries := by
  have hfold : ∀ t : Iblt, t.numCells = max n 1 →
      (entries.foldl (fun t entry => t.insert entry.1 entry.2) t).cell =
        t.cell + Sketch.sketch (contribution (max n 1)) entries := by
    induction entries with
    | nil => exact fun t _ => (add_zero _).symm
    | cons entry entries ih =>
        intro t ht
        rw [List.foldl_cons, ih _ (by rw [numCells_insert, ht]), cell_insert, ht,
          Sketch.sketch_cons, add_assoc]
  have hnew : (Iblt.new n).cell = 0 := by
    funext q
    rw [Iblt.cell, Iblt.new, List.getD_eq_getElem?_getD, List.getElem?_replicate]
    split <;> rfl
  have hlen : (Iblt.new n).numCells = max n 1 := List.length_replicate
  rw [encodeSet, hfold _ hlen, hnew, zero_add]

/-- `subtract` succeeds on tables of one size and takes the cells apart. -/
lemma subtract_eq_ok {t other d : Iblt} (h : t.subtract other = .ok d) :
    d.numCells = t.numCells ∧ d.cell = t.cell - other.cell := by
  rw [Iblt.subtract] at h
  split at h
  · next hlen =>
      cases h
      refine ⟨by rw [Iblt.numCells, List.length_zipWith, ← hlen, Nat.min_self]; rfl, ?_⟩
      funext q
      simp only [Iblt.cell, Pi.sub_apply, List.getD_eq_getElem?_getD, List.getElem?_zipWith]
      rcases Nat.lt_or_ge q t.cells.length with hq | hq
      · rw [List.getElem?_eq_getElem hq, List.getElem?_eq_getElem (hlen ▸ hq)]
        rfl
      · rw [List.getElem?_eq_none hq, List.getElem?_eq_none (hlen ▸ hq)]
        exact (sub_zero (0 : Cell)).symm
  · cases h

/-- The table of a difference. -/
structure Encodes (numCells : ℕ) (A B : List Pair) (t : Iblt) : Prop where
  numCells_eq : t.numCells = numCells
  cell_eq : t.cell = Sketch.difference (contribution numCells) A B

lemma encodes_of_subtract {A B : List Pair} {n : ℕ} {d : Iblt}
    (h : (encodeSet A n).subtract (encodeSet B n) = .ok d) : Encodes (max n 1) A B d := by
  obtain ⟨hnum, hcell⟩ := subtract_eq_ok h
  refine ⟨hnum.trans (numCells_encodeSet A n), ?_⟩
  rw [hcell, cell_encodeSet, cell_encodeSet]
  rfl

lemma exists_subtract (A B : List Pair) (n : ℕ) :
    ∃ d, (encodeSet A n).subtract (encodeSet B n) = .ok d :=
  ⟨_, dif_pos ((numCells_encodeSet A n).trans (numCells_encodeSet B n).symm)⟩

/-- A table is its cells. -/
lemma Iblt.ext_cell {t u : Iblt} (hnum : t.numCells = u.numCells) (hcell : t.cell = u.cell) :
    t = u := by
  have hcells : t.cells = u.cells := by
    refine List.ext_getElem hnum fun q hq hq' => ?_
    have hq_cell := congrFun hcell q
    rwa [Iblt.cell, Iblt.cell, List.getD_eq_getElem?_getD, List.getD_eq_getElem?_getD,
      List.getElem?_eq_getElem hq, List.getElem?_eq_getElem hq'] at hq_cell
  cases t
  cases u
  cases hcells
  rfl

/-- A difference has one table. -/
lemma Encodes.unique {n : ℕ} {A B : List Pair} {t u : Iblt} (ht : Encodes n A B t)
    (hu : Encodes n A B u) : t = u :=
  Iblt.ext_cell (ht.numCells_eq.trans hu.numCells_eq.symm) (ht.cell_eq.trans hu.cell_eq.symm)

end RustBinary.Ibl
