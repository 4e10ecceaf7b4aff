import FpgaV3.Framework.World

/-!
# Programs of a component

A program over the calls of a component is one over the calls of a larger system
(`Prog.embed`). If its calls change only the state of the component, it ends as it does
in the component's own world (`wp_embed`).
-/

namespace FpgaV3

variable {E E' : Type} {R : E → Type} {R' : E' → Type} {α S S' : Type}

/-- Each call `e` is the call `f e`, answered with `g e`. -/
def Prog.embed (f : E → E') (g : (e : E) → R' (f e) → R e) : Prog E R α → Prog E' R' α
  | .ret a => .ret a
  | .call e k => .call (f e) fun r => (k (g e r)).embed f g
  | .stop => .stop

variable {w : World E R S} {w' : World E' R' S'} {f : E → E'} {g : (e : E) → R' (f e) → R e} {P : E → Prop}
  {c : S → S'} {lim : Prop} {p : Prog E R α} {s : S} {Q : α → S → Prop}

/-- `c s` is the state of the system with `s` for that of the component. -/
theorem wp_embed (hstep : ∀ s e r t, P e → w'.step (c s) (f e) r t → ∃ s', t = c s' ∧ w.step s e (g e r) s')
    (hp : p.All P) (h : WP w lim p s Q) : WP w' lim (p.embed f g) (c s) fun a t => ∃ s', t = c s' ∧ Q a s' := by
  induction p generalizing s with
  | ret a => exact ⟨s, rfl, h⟩
  | call e k ih =>
    intro r t hs
    obtain ⟨s', rfl, hs'⟩ := hstep s e r t hp.1 hs
    exact ih _ (hp.2 _) (h _ s' hs')
  | stop => exact h

end FpgaV3
