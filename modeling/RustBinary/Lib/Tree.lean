import Mathlib.Tactic.Common
import Mathlib.Order.Basic

/-!
# Trees of arrays and objects

The values of a self-describing format are trees: scalars, and containers of entries.  An entry
of an object has a key in front of its value, an entry of an array has none, so that the two
kinds of container share one type of entries, `Forest kind`.

Scalars and keys are parameters.  `Tree.map` and `Tree.mapOption` exchange them;
`Tree.Within` is the check of a bound on the entries of a container and of one on the nesting,
`Tree.containers`, `Tree.elements` and `Tree.height` count what a tree is made of, and
`Tree.rounds` is how often a reader that goes over the tree calls itself at most.
-/

namespace Lib

inductive Kind where
  | array
  | object
deriving DecidableEq, Repr

/-- What stands before a value in a container. -/
def KeyOf (κ : Type) : Kind → Type
  | .array => Unit
  | .object => κ

mutual

inductive Tree (σ κ : Type) : Type where
  | scalar (value : σ)
  | node (kind : Kind) (entries : Forest σ κ kind)

inductive Forest (σ κ : Type) : Kind → Type where
  | nil {kind : Kind} : Forest σ κ kind
  | cons {kind : Kind} (key : KeyOf κ kind) (value : Tree σ κ) (rest : Forest σ κ kind) :
      Forest σ κ kind

end

variable {σ τ κ μ : Type}

/-! ## Exchanging scalars and keys -/

def KeyOf.map (g : κ → μ) : {kind : Kind} → KeyOf κ kind → KeyOf μ kind
  | .array, _ => ()
  | .object, key => g key

def KeyOf.mapOption (g : κ → Option μ) : {kind : Kind} → KeyOf κ kind → Option (KeyOf μ kind)
  | .array, _ => some ()
  | .object, key => g key

def KeyOf.All (q : κ → Prop) : {kind : Kind} → KeyOf κ kind → Prop
  | .array, _ => True
  | .object, key => q key

mutual

def Tree.map (f : σ → τ) (g : κ → μ) : Tree σ κ → Tree τ μ
  | .scalar value => .scalar (f value)
  | .node kind entries => .node kind (entries.map f g)

def Forest.map (f : σ → τ) (g : κ → μ) {kind : Kind} : Forest σ κ kind → Forest τ μ kind
  | .nil => .nil
  | .cons key value rest => .cons (key.map g) (value.map f g) (rest.map f g)

end

mutual

/-- Exchanges scalars and keys, if each of them has a counterpart. -/
def Tree.mapOption (f : σ → Option τ) (g : κ → Option μ) : Tree σ κ → Option (Tree τ μ)
  | .scalar value => (f value).map .scalar
  | .node kind entries => (entries.mapOption f g).map (.node kind)

def Forest.mapOption (f : σ → Option τ) (g : κ → Option μ) {kind : Kind} :
    Forest σ κ kind → Option (Forest τ μ kind)
  | .nil => some .nil
  | .cons key value rest =>
      match KeyOf.mapOption g key, value.mapOption f g, rest.mapOption f g with
      | some key, some value, some rest => some (.cons key value rest)
      | _, _, _ => none

end

lemma Forest.mapOption_cons_eq_some {f : σ → Option τ} {g : κ → Option μ} {kind : Kind}
    {key : KeyOf κ kind} {value : Tree σ κ} {rest : Forest σ κ kind} {out : Forest τ μ kind} :
    (Forest.cons key value rest).mapOption f g = some out ↔
      ∃ key' value' rest', KeyOf.mapOption g key = some key' ∧ value.mapOption f g = some value' ∧
        rest.mapOption f g = some rest' ∧ out = .cons key' value' rest' := by
  rw [Forest.mapOption]
  constructor
  · intro h
    split at h
    · next key' value' rest' hkey hvalue hrest =>
        exact ⟨key', value', rest', hkey, hvalue, hrest, (Option.some.inj h).symm⟩
    · simp at h
  · rintro ⟨key', value', rest', hkey, hvalue, hrest, rfl⟩
    simp only [hkey, hvalue, hrest]

section Map

variable {υ ν : Type} {f : σ → τ} {g : κ → μ} {f₂ : τ → Option υ} {g₂ : μ → Option ν}
  {h : σ → υ} {k : κ → ν}

lemma KeyOf.mapOption_map (hk : ∀ key, g₂ (g key) = some (k key)) {kind : Kind}
    (key : KeyOf κ kind) : (key.map g).mapOption g₂ = some (key.map k) := by
  cases kind with
  | array => rfl
  | object => exact hk key

mutual

/-- A counterpart that every scalar and every key has, the tree has. -/
lemma Tree.mapOption_map (hs : ∀ value, f₂ (f value) = some (h value))
    (hk : ∀ key, g₂ (g key) = some (k key)) :
    ∀ tree : Tree σ κ, (tree.map f g).mapOption f₂ g₂ = some (tree.map h k)
  | .scalar value => by rw [Tree.map, Tree.mapOption, hs, Option.map_some, Tree.map]
  | .node kind entries => by
      rw [Tree.map, Tree.mapOption, Forest.mapOption_map hs hk entries, Option.map_some, Tree.map]

lemma Forest.mapOption_map (hs : ∀ value, f₂ (f value) = some (h value))
    (hk : ∀ key, g₂ (g key) = some (k key)) {kind : Kind} :
    ∀ entries : Forest σ κ kind, (entries.map f g).mapOption f₂ g₂ = some (entries.map h k)
  | .nil => by rw [Forest.map, Forest.mapOption, Forest.map]
  | .cons key value rest => by
      rw [Forest.map, Forest.mapOption_cons_eq_some]
      exact ⟨_, _, _, key.mapOption_map hk, Tree.mapOption_map hs hk value,
        Forest.mapOption_map hs hk rest, by rw [Forest.map]⟩

end

end Map

/-! ## Sizes -/

def Forest.length {kind : Kind} : Forest σ κ kind → ℕ
  | .nil => 0
  | .cons _ _ rest => rest.length + 1

mutual

/-- No container has more entries than `limit`, and none is nested deeper than `room`. -/
def Tree.Within (limit : Option ℕ) : ℕ → Tree σ κ → Prop
  | _, .scalar _ => True
  | room, .node _ entries =>
      0 < room ∧ (∀ l, limit = some l → entries.length ≤ l) ∧ entries.Within limit (room - 1)

def Forest.Within (limit : Option ℕ) (room : ℕ) {kind : Kind} : Forest σ κ kind → Prop
  | .nil => True
  | .cons _ value rest => value.Within limit room ∧ rest.Within limit room

end

mutual

/-- Every scalar satisfies `p` and every key satisfies `q`. -/
def Tree.All (p : σ → Prop) (q : κ → Prop) : Tree σ κ → Prop
  | .scalar value => p value
  | .node _ entries => entries.All p q

def Forest.All (p : σ → Prop) (q : κ → Prop) {kind : Kind} : Forest σ κ kind → Prop
  | .nil => True
  | .cons key value rest => key.All q ∧ value.All p q ∧ rest.All p q

end

mutual

def Tree.rounds : Tree σ κ → ℕ
  | .scalar _ => 1
  | .node _ entries => entries.rounds + 1

def Forest.rounds {kind : Kind} : Forest σ κ kind → ℕ
  | .nil => 1
  | .cons _ value rest => max value.rounds rest.rounds + 1

end

mutual

/-- How many containers there are. -/
def Tree.containers : Tree σ κ → ℕ
  | .scalar _ => 0
  | .node _ entries => entries.containers + 1

def Forest.containers {kind : Kind} : Forest σ κ kind → ℕ
  | .nil => 0
  | .cons _ value rest => value.containers + rest.containers

end

mutual

/-- How many entries the containers have together. -/
def Tree.elements : Tree σ κ → ℕ
  | .scalar _ => 0
  | .node _ entries => entries.elements + entries.length

def Forest.elements {kind : Kind} : Forest σ κ kind → ℕ
  | .nil => 0
  | .cons _ value rest => value.elements + rest.elements

end

mutual

/-- How deep the containers are nested. -/
def Tree.height : Tree σ κ → ℕ
  | .scalar _ => 0
  | .node _ entries => entries.height + 1

def Forest.height {kind : Kind} : Forest σ κ kind → ℕ
  | .nil => 0
  | .cons _ value rest => max value.height rest.height

end

lemma Forest.length_map (f : σ → τ) (g : κ → μ) {kind : Kind} :
    ∀ entries : Forest σ κ kind, (entries.map f g).length = entries.length
  | .nil => by rw [Forest.map, Forest.length, Forest.length]
  | .cons key value rest => by
      rw [Forest.map, Forest.length, Forest.length, Forest.length_map f g rest]

mutual

lemma Tree.within_map (f : σ → τ) (g : κ → μ) (limit : Option ℕ) :
    ∀ (room : ℕ) (tree : Tree σ κ), (tree.map f g).Within limit room ↔ tree.Within limit room
  | room, .scalar value => by rw [Tree.map, Tree.Within, Tree.Within]
  | room, .node kind entries => by
      rw [Tree.map, Tree.Within, Tree.Within, Forest.length_map,
        Forest.within_map f g limit (room - 1) entries]

lemma Forest.within_map (f : σ → τ) (g : κ → μ) (limit : Option ℕ) (room : ℕ) {kind : Kind} :
    ∀ entries : Forest σ κ kind,
      (entries.map f g).Within limit room ↔ entries.Within limit room
  | .nil => by rw [Forest.map, Forest.Within, Forest.Within]
  | .cons key value rest => by
      rw [Forest.map, Forest.Within, Forest.Within, Tree.within_map f g limit room value,
        Forest.within_map f g limit room rest]

end

section Counts

variable (f : σ → τ) (g : κ → μ)

mutual

lemma Tree.containers_map : ∀ tree : Tree σ κ, (tree.map f g).containers = tree.containers
  | .scalar value => by rw [Tree.map, Tree.containers, Tree.containers]
  | .node kind entries => by
      rw [Tree.map, Tree.containers, Tree.containers, Forest.containers_map entries]

lemma Forest.containers_map {kind : Kind} :
    ∀ entries : Forest σ κ kind, (entries.map f g).containers = entries.containers
  | .nil => by rw [Forest.map, Forest.containers, Forest.containers]
  | .cons key value rest => by
      rw [Forest.map, Forest.containers, Forest.containers, Tree.containers_map value,
        Forest.containers_map rest]

end

mutual

lemma Tree.elements_map : ∀ tree : Tree σ κ, (tree.map f g).elements = tree.elements
  | .scalar value => by rw [Tree.map, Tree.elements, Tree.elements]
  | .node kind entries => by
      rw [Tree.map, Tree.elements, Tree.elements, Forest.elements_map entries, Forest.length_map]

lemma Forest.elements_map {kind : Kind} :
    ∀ entries : Forest σ κ kind, (entries.map f g).elements = entries.elements
  | .nil => by rw [Forest.map, Forest.elements, Forest.elements]
  | .cons key value rest => by
      rw [Forest.map, Forest.elements, Forest.elements, Tree.elements_map value,
        Forest.elements_map rest]

end

mutual

lemma Tree.height_map : ∀ tree : Tree σ κ, (tree.map f g).height = tree.height
  | .scalar value => by rw [Tree.map, Tree.height, Tree.height]
  | .node kind entries => by
      rw [Tree.map, Tree.height, Tree.height, Forest.height_map entries]

lemma Forest.height_map {kind : Kind} :
    ∀ entries : Forest σ κ kind, (entries.map f g).height = entries.height
  | .nil => by rw [Forest.map, Forest.height, Forest.height]
  | .cons key value rest => by
      rw [Forest.map, Forest.height, Forest.height, Tree.height_map value, Forest.height_map rest]

end

end Counts

lemma KeyOf.all_map {g : κ → μ} {q : μ → Prop} {q' : κ → Prop} (hq : ∀ key, q (g key) ↔ q' key)
    {kind : Kind} (key : KeyOf κ kind) : (key.map g).All q ↔ key.All q' := by
  cases kind with
  | array => rfl
  | object => exact hq key

mutual

lemma Tree.all_map {f : σ → τ} {g : κ → μ} {p : τ → Prop} {q : μ → Prop} {p' : σ → Prop}
    {q' : κ → Prop} (hp : ∀ value, p (f value) ↔ p' value) (hq : ∀ key, q (g key) ↔ q' key) :
    ∀ tree : Tree σ κ, (tree.map f g).All p q ↔ tree.All p' q'
  | .scalar value => hp value
  | .node kind entries => by
      rw [Tree.map, Tree.All, Tree.All]
      exact Forest.all_map hp hq entries

lemma Forest.all_map {f : σ → τ} {g : κ → μ} {p : τ → Prop} {q : μ → Prop} {p' : σ → Prop}
    {q' : κ → Prop} (hp : ∀ value, p (f value) ↔ p' value) (hq : ∀ key, q (g key) ↔ q' key)
    {kind : Kind} : ∀ entries : Forest σ κ kind, (entries.map f g).All p q ↔ entries.All p' q'
  | .nil => by rw [Forest.map, Forest.All, Forest.All]
  | .cons key value rest => by
      rw [Forest.map, Forest.All, Forest.All]
      exact and_congr (key.all_map hq)
        (and_congr (Tree.all_map hp hq value) (Forest.all_map hp hq rest))

end

mutual

/-- The room that the nesting of a tree takes. -/
lemma Tree.height_le {limit : Option ℕ} :
    ∀ {room : ℕ} (tree : Tree σ κ), tree.Within limit room → tree.height ≤ room
  | room, .scalar value, _ => Nat.zero_le room
  | room, .node kind entries, ⟨hroom, _, hentries⟩ => by
      have := Forest.height_le entries hentries
      rw [Tree.height]
      omega

lemma Forest.height_le {limit : Option ℕ} {kind : Kind} :
    ∀ {room : ℕ} (entries : Forest σ κ kind), entries.Within limit room → entries.height ≤ room
  | room, .nil, _ => Nat.zero_le room
  | room, .cons key value rest, ⟨hvalue, hrest⟩ => by
      rw [Forest.height]
      exact Nat.max_le.mpr ⟨Tree.height_le value hvalue, Forest.height_le rest hrest⟩

end

/-! ## Preimages -/

section Preimage

variable {ρ ν : Type} {f : σ → Option τ} {g : κ → Option μ} {f' : ρ → σ} {g' : ν → κ}
  {h : ρ → τ} {k : ν → μ} {p : σ → Prop} {q : κ → Prop}

lemma KeyOf.exists_map (hk : ∀ key out, q key → g key = some out → ∃ r, g' r = key ∧ k r = out)
    {kind : Kind} {key : KeyOf κ kind} {out : KeyOf μ kind} (hall : key.All q)
    (hmap : KeyOf.mapOption g key = some out) :
    ∃ r : KeyOf ν kind, r.map g' = key ∧ r.map k = out := by
  cases kind with
  | array => exact ⟨(), rfl, rfl⟩
  | object => exact hk key out hall hmap

mutual

/-- A tree whose scalars and keys have counterparts is, like the tree of the counterparts, the
image of a third tree, if each scalar and each key is. -/
lemma Tree.exists_map
    (hs : ∀ value out, p value → f value = some out → ∃ r, f' r = value ∧ h r = out)
    (hk : ∀ key out, q key → g key = some out → ∃ r, g' r = key ∧ k r = out) :
    ∀ (tree : Tree σ κ) {out : Tree τ μ}, tree.All p q → tree.mapOption f g = some out →
      ∃ r : Tree ρ ν, r.map f' g' = tree ∧ r.map h k = out
  | .scalar value, _, hall, hmap => by
      obtain ⟨token, htoken, rfl⟩ := Option.map_eq_some_iff.mp hmap
      obtain ⟨r, rfl, rfl⟩ := hs value token hall htoken
      exact ⟨.scalar r, rfl, rfl⟩
  | .node kind entries, _, hall, hmap => by
      obtain ⟨out, hout, rfl⟩ := Option.map_eq_some_iff.mp hmap
      obtain ⟨r, rfl, rfl⟩ := Forest.exists_map hs hk entries hall hout
      exact ⟨.node kind r, rfl, rfl⟩

lemma Forest.exists_map
    (hs : ∀ value out, p value → f value = some out → ∃ r, f' r = value ∧ h r = out)
    (hk : ∀ key out, q key → g key = some out → ∃ r, g' r = key ∧ k r = out) {kind : Kind} :
    ∀ (entries : Forest σ κ kind) {out : Forest τ μ kind}, entries.All p q →
      entries.mapOption f g = some out →
      ∃ r : Forest ρ ν kind, r.map f' g' = entries ∧ r.map h k = out
  | .nil, _, _, hmap => ⟨.nil, rfl, Option.some.inj hmap⟩
  | .cons key value rest, _, ⟨hkeyAll, hvalueAll, hrestAll⟩, hmap => by
      obtain ⟨_, _, _, hkey, hvalue, hrest, rfl⟩ := Forest.mapOption_cons_eq_some.mp hmap
      obtain ⟨key', rfl, rfl⟩ := KeyOf.exists_map hk hkeyAll hkey
      obtain ⟨value', rfl, rfl⟩ := Tree.exists_map hs hk value hvalueAll hvalue
      obtain ⟨rest', rfl, rfl⟩ := Forest.exists_map hs hk rest hrestAll hrest
      exact ⟨.cons key' value' rest', rfl, rfl⟩

end

end Preimage

end Lib
