/-!
# Binary heaps with removal anywhere

A heap is an array in which no item belongs above its parent, for a given relation "belongs above"
(`Heap.IsHeap`). The operations compare and swap along one path of the tree: `siftUp` towards the
root, `siftDown` towards the leaves. Removal moves the last item into the gap, from where it may
have to go either way.
-/

namespace Rollup

/-- An array read as a binary tree: the parent of position `i` is at `(i - 1) / 2`. -/
structure Heap {α : Type} (above : α → α → Bool) where
  items : Array α

namespace Heap

variable {α : Type} {above : α → α → Bool}

def parent (i : Nat) : Nat := (i - 1) / 2

/-- No item belongs above its parent. -/
def IsHeap (above : α → α → Bool) (a : Array α) : Prop :=
  ∀ i x y, 0 < i → a[i]? = some x → a[parent i]? = some y → above x y = false

/-- Moves the item at `i` towards the root while it belongs above its parent. -/
def siftUp (above : α → α → Bool) (a : Array α) (i : Nat) : Array α :=
  if h : 0 < i ∧ i < a.size then
    have hp : parent i < a.size := by unfold parent; omega
    if above a[i] a[parent i] then siftUp above (a.swapIfInBounds i (parent i)) (parent i) else a
  else a
termination_by i
decreasing_by unfold parent; omega

/-- Whichever of the positions `i` and `j` holds the item that belongs above the other; `i` if
neither does or `j` is past the end. -/
def upper (above : α → α → Bool) (a : Array α) (i j : Nat) : Nat :=
  if h : i < a.size ∧ j < a.size then if above a[j] a[i] then j else i else i

theorem upper_eq_or (above : α → α → Bool) (a : Array α) (i j : Nat) :
    upper above a i j = i ∨ (upper above a i j = j ∧ j < a.size) := by
  unfold upper
  split
  · split
    · exact .inr ⟨rfl, by omega⟩
    · exact .inl rfl
  · exact .inl rfl

/-- The position that belongs uppermost among `i` and its two children. -/
def uppermost (above : α → α → Bool) (a : Array α) (i : Nat) : Nat :=
  upper above a (upper above a i (2 * i + 1)) (2 * i + 2)

theorem uppermost_eq_or (above : α → α → Bool) (a : Array α) (i : Nat) :
    uppermost above a i = i ∨ (i < uppermost above a i ∧ uppermost above a i < a.size) := by
  unfold uppermost
  rcases upper_eq_or above a (upper above a i (2 * i + 1)) (2 * i + 2) with h | ⟨h, hlt⟩
  · rw [h]
    rcases upper_eq_or above a i (2 * i + 1) with h' | ⟨h', hlt'⟩
    · exact .inl h'
    · exact .inr (by omega)
  · exact .inr (by omega)

/-- Moves the item at `i` towards the leaves while one of its children belongs above it. -/
def siftDown (above : α → α → Bool) (a : Array α) (i : Nat) : Array α :=
  let best := uppermost above a i
  if best = i then a else siftDown above (a.swapIfInBounds i best) best
termination_by a.size - i
decreasing_by
  rcases uppermost_eq_or above a i with h | ⟨h, hlt⟩
  · contradiction
  · simp only [Array.size_swapIfInBounds]; omega

/-! ### Operations -/

def empty : Heap above := ⟨#[]⟩

/-- A heap of the given items: every inner position is sifted down, the last one first. -/
def ofArray (a : Array α) : Heap above :=
  ⟨(List.range (a.size / 2)).reverse.foldl (siftDown above) a⟩

def size (h : Heap above) : Nat := h.items.size

/-- The items in the order they are stored. -/
def toList (h : Heap above) : List α := h.items.toList

/-- The item that no other belongs above. -/
def top? (h : Heap above) : Option α := h.items[0]?

def push (h : Heap above) (x : α) : Heap above := ⟨siftUp above (h.items.push x) h.items.size⟩

/-- The heap without the item at `i`; the last item takes its place and is sifted from there. -/
def eraseIdx (h : Heap above) (i : Nat) : Heap above :=
  let a := (h.items.swapIfInBounds i (h.items.size - 1)).pop
  -- The moved item comes from another branch, so it may be out of place in either direction.
  if i < a.size then ⟨siftDown above (siftUp above a i) i⟩ else ⟨a⟩

def pop (h : Heap above) : Heap above := h.eraseIdx 0

/-- The heap without the first stored item that satisfies `p`, if there is one. -/
def erase? (h : Heap above) (p : α → Bool) : Option (Heap above) :=
  (h.items.findIdx? p).map h.eraseIdx

/-- Checks every item against its parent. -/
def isHeap (h : Heap above) : Bool :=
  (List.range h.items.size).all fun i =>
    match h.items[i]?, h.items[parent i]? with
    | some x, some y => i == 0 || !above x y
    | _, _ => true

/-! ### Sizes -/

theorem size_siftUp (a : Array α) (i : Nat) : (siftUp above a i).size = a.size := by
  fun_induction siftUp above a i with
  | case1 _ _ _ _ _ ih => rw [ih, Array.size_swapIfInBounds]
  | case2 => rfl
  | case3 => rfl

theorem size_siftDown (a : Array α) (i : Nat) : (siftDown above a i).size = a.size := by
  fun_induction siftDown above a i with
  | case1 => rfl
  | case2 _ _ _ _ ih => rw [ih, Array.size_swapIfInBounds]

@[simp] theorem size_push (h : Heap above) (x : α) : (h.push x).size = h.size + 1 := by
  simp [push, size, size_siftUp]

theorem size_eraseIdx (h : Heap above) (i : Nat) : (h.eraseIdx i).size = h.size - 1 := by
  unfold eraseIdx
  simp only [size]
  split <;> simp [size_siftDown, size_siftUp]

end Heap
end Rollup
