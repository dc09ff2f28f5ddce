import ShellVM.Machine.Run
import ShellVM.Proofs.Alike.Closure

/-!
# A machine on top of another

`Window V k m m'` says that the machine `m` is `m'` on top of a context `k`: what `m` has beyond the context is what
`m'` has, up to the traces of errors, at places that are shifted by the sizes of the context. With an empty context and
the same machine on both sides it says that all values in the machine respect the view.
-/

namespace ShellVM

/-- What lies below a call: the state of the machine when the call started. -/
structure Context where
  stack : Array Value
  frames : List Frame
  iterators : List Iter
  handlers : List Handler
  pending : List Addr
  /-- The handlers belong to the frames. -/
  bounded : ∀ h ∈ handlers, h.frameDepth ≤ frames.length

/-- Nothing lies below. -/
def Context.empty : Context := ⟨#[], [], [], [], [], nofun⟩

/-- The frame on top of a context. -/
def Frame.above (k : Context) (f : Frame) : Frame := { f with base := k.stack.size + f.base }

/-- The handler on top of a context. -/
def Handler.above (k : Context) (h : Handler) : Handler :=
  ⟨h.frameDepth + k.frames.length, k.stack.size + h.stackHeight, h.iterDepth + k.iterators.length, h.catchIp⟩

/-- Under the limits of the host, a call on top of the context can go as deep as under the given ones without it. -/
def Context.Room (k : Context) (host : Host) (limits' : Limits) : Prop :=
  ∀ n, host.callDepth ≤ n + k.frames.length ↔ limits'.callDepth ≤ n

structure Window (V : View) (k : Context) (m m' : Machine) : Prop where
  stack : ∃ top, m.stack = k.stack ++ top ∧ ItemsAlike V top m'.stack
  frames : m.frames = m'.frames.map (Frame.above k) ++ k.frames
  iterators : ∃ top, m.iterators = top ++ k.iterators ∧ List.Forall₂ (Iter.Alike V) top m'.iterators
  handlers : m.handlers = m'.handlers.map (Handler.above k) ++ k.handlers
  pending : m.pending = m'.pending ++ k.pending
  world : m.world.Alike V m'.world

/-! ## Rows of values -/

namespace ItemsAlike

variable {V : View} {xs ys : Array Value}

theorem back? (h : ItemsAlike V xs ys) (hy : 0 < ys.size) :
    ∃ u v, xs.back? = some u ∧ ys.back? = some v ∧ u.Alike V v := by
  have hsize := h.size
  have := forall₂_getElem? h (ys.size - 1)
  simp only [Array.getElem?_toList] at this
  rcases this with ⟨-, hnone⟩ | ⟨u, v, hu, hv, huv⟩
  · rw [Array.getElem?_eq_none_iff] at hnone
    omega
  · refine ⟨u, v, ?_, hv, huv⟩
    rw [Array.back?, ← hsize]
    exact hu

theorem pop (h : ItemsAlike V xs ys) : ItemsAlike V xs.pop ys.pop := by
  unfold ItemsAlike
  simp only [Array.toList_pop, List.dropLast_eq_take, h.length_eq]
  exact List.forall₂_take _ h

theorem take (h : ItemsAlike V xs ys) (n : Nat) : ItemsAlike V (xs.shrink n) (ys.shrink n) := by
  unfold ItemsAlike
  simp only [Array.toList_shrink]
  exact List.forall₂_take n h

theorem extract (h : ItemsAlike V xs ys) (start stop : Nat) :
    ItemsAlike V (xs.extract start stop) (ys.extract start stop) := by
  unfold ItemsAlike
  simp only [Array.toList_extract, List.extract_eq_take_drop]
  exact List.forall₂_take _ (List.forall₂_drop _ h)

theorem set (h : ItemsAlike V xs ys) {u v : Value} (huv : u.Alike V v) (i : Nat) (hx : i < xs.size) (hy : i < ys.size) :
    ItemsAlike V (xs.set i u hx) (ys.set i v hy) := by
  unfold ItemsAlike
  simp only [Array.toList_set]
  exact forall₂_set h huv i

theorem eraseIdx (h : ItemsAlike V xs ys) (i : Nat) (hx : i < xs.size) (hy : i < ys.size) :
    ItemsAlike V (xs.eraseIdx i hx) (ys.eraseIdx i hy) := by
  unfold ItemsAlike
  simp only [Array.toList_eraseIdx, List.eraseIdx_eq_take_drop_succ]
  exact List.rel_append (List.forall₂_take _ h) (List.forall₂_drop _ h)

theorem getElem (h : ItemsAlike V xs ys) (i : Nat) (hx : i < xs.size) (hy : i < ys.size) : xs[i].Alike V ys[i] := by
  have := forall₂_getElem? h i
  simp only [Array.getElem?_toList, Array.getElem?_eq_getElem hx, Array.getElem?_eq_getElem hy] at this
  rcases this with ⟨hnone, -⟩ | ⟨u, v, hu, hv, huv⟩
  · cases hnone
  · cases hu
    cases hv
    exact huv

theorem append {xs' ys' : Array Value} (h : ItemsAlike V xs ys) (h' : ItemsAlike V xs' ys') :
    ItemsAlike V (xs ++ xs') (ys ++ ys') := Value.append_alike h h'

end ItemsAlike

/-! ## The stack -/

section Stack

variable {α : Type} {below top : Array α}

theorem shrink_append {n : Nat} : (below ++ top).shrink (below.size + n) = below ++ top.shrink n := by
  apply Array.ext'
  simp only [Array.toList_shrink, Array.toList_append, List.take_append, Array.length_toList]
  rw [List.take_of_length_le (by simp), Nat.add_sub_cancel_left]

theorem extract_append_top {start stop : Nat} :
    (below ++ top).extract (below.size + start) (below.size + stop) = top.extract start stop := by
  apply Array.ext'
  simp only [Array.toList_extract, Array.toList_append, List.extract_eq_take_drop,
    List.drop_append, Array.length_toList]
  rw [List.drop_of_length_le (by simp), List.nil_append, Nat.add_sub_cancel_left, Nat.add_sub_add_left]

end Stack

/-- Of a row on top of another, the outermost of the top and all below. -/
theorem keepLast_append {α : Type} (xs ys : List α) (n : Nat) :
    keepLast (n + ys.length) (xs ++ ys) = keepLast n xs ++ ys := by
  unfold keepLast
  rw [List.length_append, List.drop_append_of_le_length (by omega)]
  congr 2
  omega

theorem keepLast_map {α β : Type} (f : α → β) (xs : List α) (n : Nat) :
    keepLast n (xs.map f) = (keepLast n xs).map f := by
  unfold keepLast
  rw [List.length_map, List.map_drop]

end ShellVM
