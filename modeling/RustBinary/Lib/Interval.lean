import Mathlib.Algebra.Order.Ring.Nat
import Mathlib.Data.List.Range
import Mathlib.Data.List.Destutter
import Mathlib.Data.List.Sort

/-!
# Intervals of a level of a binary tree

A level of a binary tree has its nodes numbered from the left, so that the children of `p` are
`2 * p` and `2 * p + 1`.  The parents of an interval of nodes are an interval.  The children of
these parents are the interval itself and at most one node on each side, its *edges*
(`interval_children`); a level is hashed by the pairs of siblings (`pairUp`).
-/

namespace Lib

/-! ## Intervals -/

/-- The numbers from `a` to `b`. -/
def interval (a b : ℕ) : List ℕ := List.range' a (b + 1 - a)

@[simp] lemma length_interval (a b : ℕ) : (interval a b).length = b + 1 - a := by
  simp [interval]

@[simp] lemma mem_interval {a b i : ℕ} : i ∈ interval a b ↔ a ≤ i ∧ i ≤ b := by
  rw [interval, List.mem_range'_1]
  omega

lemma interval_self (a : ℕ) : interval a a = [a] := by
  simp [interval]

lemma interval_cons {a b : ℕ} (h : a ≤ b) : interval a b = a :: interval (a + 1) b := by
  rw [interval, interval, show b + 1 - a = b + 1 - (a + 1) + 1 by omega, List.range'_succ]

lemma interval_of_lt {a b : ℕ} (h : b < a) : interval a b = [] := by
  simp [interval, show b + 1 - a = 0 by omega]

lemma interval_append {a b c : ℕ} (h : a ≤ b + 1) (h' : b ≤ c) :
    interval a b ++ interval (b + 1) c = interval a c := by
  have hjoin : List.range' a (b + 1 - a) ++ List.range' (a + 1 * (b + 1 - a)) (c - b)
      = List.range' a (b + 1 - a + (c - b)) := List.range'_append
  rw [show a + 1 * (b + 1 - a) = b + 1 by omega,
    show b + 1 - a + (c - b) = c + 1 - a by omega] at hjoin
  rw [interval, interval, interval, ← hjoin, show c + 1 - (b + 1) = c - b by omega]

/-- The node to the left of an interval that starts with a right child. -/
def leftEdge (a : ℕ) : List ℕ := if a % 2 = 1 then [a - 1] else []

/-- The node to the right of an interval that ends with a left child. -/
def rightEdge (b : ℕ) : List ℕ := if b % 2 = 0 then [b + 1] else []

@[simp] lemma length_leftEdge (a : ℕ) : (leftEdge a).length = a % 2 := by
  rw [leftEdge]
  split <;> simp <;> omega

@[simp] lemma length_rightEdge (b : ℕ) : (rightEdge b).length = (b + 1) % 2 := by
  rw [rightEdge]
  split <;> simp <;> omega

/-- The children of the parents of an interval. -/
lemma interval_children {a b : ℕ} (h : a ≤ b) :
    interval (2 * (a / 2)) (2 * (b / 2) + 1) = leftEdge a ++ (interval a b ++ rightEdge b) := by
  have hright : interval a b ++ rightEdge b = interval a (2 * (b / 2) + 1) := by
    rw [rightEdge]
    split
    · next heven =>
        rw [show 2 * (b / 2) + 1 = b + 1 by omega, ← interval_self (b + 1)]
        exact interval_append (by omega) (by omega)
    · next hodd => rw [List.append_nil, show 2 * (b / 2) + 1 = b by omega]
  rw [hright, leftEdge]
  split
  · next hodd =>
      rw [show 2 * (a / 2) = a - 1 by omega, interval_cons (by omega), List.singleton_append,
        show a - 1 + 1 = a by omega]
  · next heven => rw [List.nil_append, show 2 * (a / 2) = a by omega]

/-! ## Parents -/

/-- Halving an interval and dropping repetitions gives the interval of the parents. -/
lemma destutter_interval {a b : ℕ} (h : a ≤ b) :
    ((interval a b).map (· / 2)).destutter (· ≠ ·) = interval (a / 2) (b / 2) := by
  have hloop : ∀ n a, List.destutter' (· ≠ ·) (a / 2) ((List.range' (a + 1) n).map (· / 2))
      = interval (a / 2) ((a + n) / 2) := by
    intro n
    induction n with
    | zero =>
        intro a
        simp [interval_self]
    | succ n ih =>
        intro a
        rw [List.range'_succ, List.map_cons]
        by_cases hsame : a / 2 = (a + 1) / 2
        · rw [List.destutter'_cons_neg _ (by simpa using hsame), hsame, ih (a + 1)]
          congr 2
          omega
        · rw [List.destutter'_cons_pos _ hsame, ih (a + 1), interval_cons (a := a / 2) (by omega)]
          congr 2 <;> omega
  rw [interval_cons h, List.map_cons, List.destutter, interval]
  rw [show b + 1 - (a + 1) = b - a by omega, hloop (b - a) a]
  congr 2
  omega

lemma sorted_half_interval (a b : ℕ) : ((interval a b).map (· / 2)).Pairwise (· ≤ ·) := by
  rw [List.pairwise_map, interval]
  refine List.Pairwise.imp ?_ (List.pairwise_lt_range' 1 (by decide))
  intro i j hij
  exact Nat.div_le_div_right hij.le

/-- The parents of an interval, sorted and without repetitions. -/
lemma parents_interval {a b : ℕ} (h : a ≤ b) :
    (((interval a b).map (· / 2)).insertionSort (· ≤ ·)).destutter (· ≠ ·)
      = interval (a / 2) (b / 2) := by
  rw [(sorted_half_interval a b).insertionSort_eq, destutter_interval h]

/-! ## Pairs of siblings -/

section Pairs

variable {α β : Type*}

/-- The elements two by two. -/
def pairUp : List α → List (α × α)
  | x :: y :: rest => (x, y) :: pairUp rest
  | _ => []

lemma length_pairUp : ∀ xs : List α, (pairUp xs).length = xs.length / 2
  | [] => by simp [pairUp]
  | [_] => by simp [pairUp]
  | _ :: _ :: rest => by
      rw [pairUp, List.length_cons, length_pairUp rest, List.length_cons, List.length_cons]
      omega

/-- The labels of the children, two by two, are the labels below each parent. -/
lemma pairUp_interval (f : ℕ → α) {c d : ℕ} (h : c ≤ d + 1) :
    pairUp ((interval (2 * c) (2 * d + 1)).map f)
      = (interval c d).map fun p => (f (2 * p), f (2 * p + 1)) := by
  obtain ⟨n, hn⟩ : ∃ n, d + 1 = c + n := ⟨d + 1 - c, by omega⟩
  induction n generalizing c with
  | zero =>
      rw [interval_of_lt (by omega), interval_of_lt (by omega)]
      rfl
  | succ n ih =>
      rw [interval_cons (by omega), interval_cons (by omega), interval_cons (a := c) (by omega),
        List.map_cons, List.map_cons, List.map_cons, pairUp]
      have hnext := ih (c := c + 1) (by omega) (by omega)
      rw [show 2 * (c + 1) = 2 * c + 1 + 1 by omega] at hnext
      rw [hnext]

/-- A list of even length is determined by its pairs. -/
lemma pairUp_inj : ∀ {xs ys : List α}, xs.length = ys.length → xs.length % 2 = 0 →
    pairUp xs = pairUp ys → xs = ys
  | [], [], _, _, _ => rfl
  | [], _ :: _, hlen, _, _ => by simp at hlen
  | _ :: _, [], hlen, _, _ => by simp at hlen
  | [_], _, _, heven, _ => by simp at heven
  | _ :: _ :: _, [_], hlen, _, _ => by simp at hlen
  | x :: y :: xs, x' :: y' :: ys, hlen, heven, h => by
      rw [pairUp, pairUp, List.cons.injEq, Prod.mk.injEq] at h
      obtain ⟨⟨rfl, rfl⟩, hrest⟩ := h
      simp only [List.length_cons] at hlen heven
      have htail : xs = ys := pairUp_inj (by omega) (by omega) hrest
      rw [htail]

/-- Elements that are determined by their images. -/
lemma eq_map_of_map_eq {γ : Type*} {f : α → γ} {g : β → γ} {k : β → α} {xs : List α} {ys : List β}
    (h : xs.map f = ys.map g) (hk : ∀ x ∈ xs, ∀ y ∈ ys, f x = g y → x = k y) : xs = ys.map k := by
  induction ys generalizing xs with
  | nil => exact List.map_eq_nil_iff.mp h
  | cons y ys ih =>
      obtain ⟨x, xs, rfl, hx, hxs⟩ := List.map_eq_cons_iff.mp h
      rw [List.map_cons, hk x List.mem_cons_self y List.mem_cons_self hx]
      congr 1
      exact ih hxs fun x' hx' y' hy' =>
        hk x' (List.mem_cons_of_mem x hx') y' (List.mem_cons_of_mem y hy')

end Pairs

/-! ## Labels -/

section Labels

variable {α : Type*} (node : α → α → α)

/-- The label of a node is made from the labels of its children; the leaves are on level 0. -/
def IsLabelling (T : ℕ → ℕ → α) : Prop := ∀ l i, T (l + 1) i = node (T l (2 * i)) (T l (2 * i + 1))

/-- The labels above the given leaves. -/
def labelAbove (leaf : ℕ → α) : ℕ → ℕ → α
  | 0, i => leaf i
  | l + 1, i => node (labelAbove leaf l (2 * i)) (labelAbove leaf l (2 * i + 1))

lemma isLabelling_labelAbove (leaf : ℕ → α) : IsLabelling node (labelAbove node leaf) :=
  fun _ _ => rfl

variable {node}

/-- A labelling starts on every level. -/
lemma IsLabelling.shift {T : ℕ → ℕ → α} (h : IsLabelling node T) :
    IsLabelling node fun l => T (l + 1) := fun l i => h (l + 1) i

/-- Two trees with one root have the same labels from there down to the leaves of the lower one,
where their nodes are told apart by what they are made of. -/
lemma IsLabelling.eq_of_root_eq {T S : ℕ → ℕ → α} {h k : ℕ} (hT : IsLabelling node T)
    (hS : IsLabelling node S) (hroot : T h 0 = S k 0)
    (hinj : ∀ l m i, l < h → m < k → i < 2 ^ (h - (l + 1)) → i < 2 ^ (k - (m + 1)) →
      node (T l (2 * i)) (T l (2 * i + 1)) = node (S m (2 * i)) (S m (2 * i + 1)) →
      T l (2 * i) = S m (2 * i) ∧ T l (2 * i + 1) = S m (2 * i + 1)) :
    ∀ d, d ≤ h → d ≤ k → ∀ i < 2 ^ d, T (h - d) i = S (k - d) i := by
  intro d
  induction d with
  | zero =>
      intro _ _ i hi
      obtain rfl : i = 0 := Nat.lt_one_iff.mp hi
      exact hroot
  | succ d ih =>
      intro hdh hdk i hi
      have hhalf : i / 2 < 2 ^ d := by
        rw [Nat.pow_succ] at hi
        omega
      obtain ⟨l, rfl⟩ : ∃ l, h = l + (d + 1) := ⟨h - (d + 1), by omega⟩
      obtain ⟨m, rfl⟩ : ∃ m, k = m + (d + 1) := ⟨k - (d + 1), by omega⟩
      have hparent := ih (by omega) (by omega) (i / 2) hhalf
      rw [show l + (d + 1) - d = l + 1 by omega, show m + (d + 1) - d = m + 1 by omega,
        hT, hS] at hparent
      obtain ⟨hleft, hright⟩ := hinj l m (i / 2) (by omega) (by omega)
        (by rwa [show l + (d + 1) - (l + 1) = d by omega])
        (by rwa [show m + (d + 1) - (m + 1) = d by omega]) hparent
      rw [Nat.add_sub_cancel, Nat.add_sub_cancel]
      -- a node is the left or the right child of its parent
      rcases Nat.mod_two_eq_zero_or_one i with heven | hodd
      · rwa [show 2 * (i / 2) = i by omega] at hleft
      · rwa [show 2 * (i / 2) + 1 = i by omega] at hright

end Labels

end Lib
