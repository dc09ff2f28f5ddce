import ShellVM.Proofs.Alike.Library

/-!
# New closures

A new closure gets an environment that no value knew before. What respects a view still respects the view that knows
the new environment as well.
-/

namespace ShellVM

/-- The view that knows one more environment. -/
def View.learn (V : View) (cells : List Addr) : View := { V with environments := V.environments.push cells }

variable {V : View} (cells : List Addr)

theorem View.learn_environment {e : Addr} {known : List Addr} (h : V.environments[e]? = some known) :
    (V.learn cells).environments[e]? = some known := by
  have hlt := (Array.getElem?_eq_some_iff.1 h).1
  show (V.environments.push cells)[e]? = some known
  rw [Array.getElem?_push, if_neg (by omega), h]

theorem View.Trusts.learn {f : Function} (h : V.Trusts f) : (V.learn cells).Trusts f := by
  cases f with
  | page index name => exact h
  | closure index environment =>
    obtain ⟨known, henv, hhosts, hcells⟩ := h
    exact ⟨known, V.learn_environment cells henv, hhosts, hcells⟩
  | library f => exact h

namespace Value

mutual

theorem Alike.learn : ∀ {u v : Value}, u.Alike V v → u.Alike (V.learn cells) v
  | .tuple _, _, ⟨vs, hv, h⟩ => ⟨vs, hv, h.learn⟩
  | .error _ _, _, ⟨v', t', hv, h⟩ => ⟨v', t', hv, h.learn⟩
  | .function _, _, ⟨hv, h⟩ => ⟨hv, h.learn cells⟩
  | .list _, _, h | .dictionary _, _, h | .struct _, _, h => h
  | .nil, _, h | .boolean _, _, h | .integer _, _, h | .float _, _, h | .string _, _, h | .set _, _, h
  | .range _, _, h | .stream _, _, h => h

theorem AllAlike.learn : ∀ {us vs : List Value}, AllAlike V us vs → AllAlike (V.learn cells) us vs
  | [], _, h => h
  | _ :: _, _, ⟨v, vs, hvs, hv, h⟩ => ⟨v, vs, hvs, hv.learn, h.learn⟩

end

end Value

theorem ItemsAlike.learn {xs ys : Array Value} (h : ItemsAlike V xs ys) : ItemsAlike (V.learn cells) xs ys :=
  h.imp fun _ _ huv => huv.learn cells

theorem OrderedMap.Alike.learn {κ : Type} [BEq κ] [Hashable κ] {m m' : OrderedMap κ Value} (h : m.Alike V m') :
    m.Alike (V.learn cells) m' :=
  ⟨h.index, h.entries.imp fun _ _ he => ⟨he.1, he.2.learn cells⟩⟩

theorem Iter.Alike.learn {it it' : Iter} (h : it.Alike V it') : it.Alike (V.learn cells) it' := by
  cases it with
  | list a i => exact h
  | snapshot us =>
    obtain ⟨vs, rfl, h⟩ := h
    exact ⟨vs, rfl, h.imp fun _ _ huv => huv.learn cells⟩
  | range walk | chars rest | lines stream i => exact h

/-- Both worlds get the new environment. -/
theorem World.Alike.learn {w w' : World} (h : w.Alike V w') :
    ({ w with environments := w.environments.push cells } : World).Alike (V.learn cells)
      { w' with environments := w'.environments.push cells } where
  lists := h.lists.imp fun _ _ hxy => hxy.learn cells
  dictionaries := h.dictionaries.imp fun _ _ hm => hm.learn cells
  sets := h.sets
  records := h.records.imp fun _ _ hr => ⟨hr.name, hr.fields.learn cells⟩
  cells := h.cells.imp fun _ _ huv => huv.learn cells
  environments := by
    show w.environments.push cells = V.environments.push cells
    rw [h.environments]
  environments' := by
    show w'.environments.push cells = V.environments.push cells
    rw [h.environments']
  streams := h.streams
  files := h.files
  system := h.system
  terminal := h.terminal
  errors := h.errors

end ShellVM
