import Mathlib

/-!
# Runs of a partial step function

A machine is a step function that may refuse a step (`none`): a run feeds it a
list of steps. Two rules cover every argument over runs in this development: an
invariant that each step keeps holds after the run, and a relation that each
step of one machine can follow in another relates the two runs.

`Along ok` restricts a run by a condition on each step and the state it is
taken in.
-/

namespace OpBase.Lib

variable {σ τ ε : Type}

/-- Feed a list of steps to a machine. -/
def run (step : σ → ε → Option σ) : σ → List ε → Option σ
  | s, [] => some s
  | s, e :: es => (step s e).bind fun s' => run step s' es

variable {step : σ → ε → Option σ}

theorem run_cons_eq_some {s s' : σ} {e : ε} {es : List ε} :
    run step s (e :: es) = some s' ↔ ∃ t, step s e = some t ∧ run step t es = some s' :=
  Option.bind_eq_some_iff

/-- A run can be cut at any step. -/
theorem run_append (step : σ → ε → Option σ) : ∀ (es fs : List ε) (s : σ),
    run step s (es ++ fs) = (run step s es).bind fun t => run step t fs
  | [], _, _ => rfl
  | e :: es, fs, s => by
    show (step s e).bind _ = ((step s e).bind _).bind _
    rw [Option.bind_assoc]
    exact Option.bind_congr fun t _ => run_append step es fs t

variable {I : σ → Prop} {ok : σ → ε → Prop} {cstep : σ → ε → Option σ} {astep : τ → ε → Option τ}
  {R : σ → τ → Prop}

/-- What every step preserves holds at the end of every run. -/
theorem run_invariant (hstep : ∀ s e s', I s → step s e = some s' → I s') :
    ∀ (es : List ε) {s s' : σ}, I s → run step s es = some s' → I s'
  | [], _, _, hs, h => Option.some.inj h ▸ hs
  | _ :: es, _, _, hs, h => by
    obtain ⟨t, ht, hrun⟩ := run_cons_eq_some.mp h
    exact run_invariant hstep es (hstep _ _ t hs ht) hrun

/-- Every step of the run is taken in a state where `ok` allows it. -/
def Along (step : σ → ε → Option σ) (ok : σ → ε → Prop) : σ → List ε → Prop
  | _, [] => True
  | s, e :: es => ok s e ∧ ∀ s', step s e = some s' → Along step ok s' es

theorem Along.of_forall {ok : ε → Prop} :
    ∀ (es : List ε) (s : σ), (∀ e ∈ es, ok e) → Along step (fun _ e => ok e) s es
  | [], _, _ => trivial
  | e :: es, _, h => ⟨h e List.mem_cons_self, fun s' _ =>
      Along.of_forall es s' fun f hf => h f (List.mem_cons_of_mem e hf)⟩

theorem Along.and {ok' : σ → ε → Prop} :
    ∀ {es : List ε} {s : σ}, Along step ok s es → Along step ok' s es →
      Along step (fun s e => ok s e ∧ ok' s e) s es
  | [], _, _, _ => trivial
  | _ :: _, _, h, h' => ⟨⟨h.1, h'.1⟩, fun s' hs' => (h.2 s' hs').and (h'.2 s' hs')⟩

theorem Along.append_left {fs : List ε} :
    ∀ {es : List ε} {s : σ}, Along step ok s (es ++ fs) → Along step ok s es
  | [], _, _ => trivial
  | _ :: _, _, h => ⟨h.1, fun s' hs' => (h.2 s' hs').append_left⟩

/-- What the steps that meet a condition preserve holds at the end of a run of such steps. -/
theorem Along.invariant (hstep : ∀ s e s', I s → ok s e → step s e = some s' → I s') :
    ∀ (es : List ε) {s s' : σ}, Along step ok s es → I s → run step s es = some s' → I s'
  | [], _, _, _, hs, h => Option.some.inj h ▸ hs
  | _ :: es, _, _, hok, hs, h => by
    obtain ⟨t, ht, hrun⟩ := run_cons_eq_some.mp h
    exact Along.invariant hstep es (hok.2 t ht) (hstep _ _ t hs hok.1 ht) hrun

/-- A condition that follows from the invariant is met along the run. -/
theorem Along.of_invariant {ok' : σ → ε → Prop}
    (hstep : ∀ s e s', I s → ok s e → step s e = some s' → I s')
    (hok : ∀ s e, I s → ok s e → ok' s e) :
    ∀ (es : List ε) {s : σ}, Along step ok s es → I s → Along step ok' s es
  | [], _, _, _ => trivial
  | e :: es, _, h, hs => ⟨hok _ e hs h.1, fun s' hs' =>
      Along.of_invariant hstep hok es (h.2 s' hs') (hstep _ _ s' hs h.1 hs')⟩

/-- `P` holds in every state of the run, the first one included. -/
def Throughout (step : σ → ε → Option σ) (P : σ → Prop) : σ → List ε → Prop
  | s, [] => P s
  | s, e :: es => P s ∧ ∀ s', step s e = some s' → Throughout step P s' es

theorem Throughout.head {P : σ → Prop} : ∀ {es : List ε} {s : σ}, Throughout step P s es → P s
  | [], _, h => h
  | _ :: _, _, h => h.1

/-- The invariant holds in every state that is reached. -/
theorem Along.throughout (hstep : ∀ s e s', I s → ok s e → step s e = some s' → I s') :
    ∀ (es : List ε) {s : σ}, Along step ok s es → I s → Throughout step I s es
  | [], _, _, hs => hs
  | _ :: es, _, hok, hs =>
    ⟨hs, fun s' hs' => Along.throughout hstep es (hok.2 s' hs') (hstep _ _ s' hs hok.1 hs')⟩

theorem Throughout.mono {P Q : σ → Prop} (hPQ : ∀ s, P s → Q s) :
    ∀ {es : List ε} {s : σ}, Throughout step P s es → Throughout step Q s es
  | [], _, h => hPQ _ h
  | _ :: _, _, h => ⟨hPQ _ h.1, fun s' hs' => (h.2 s' hs').mono hPQ⟩

/-- Where a step keeps `P` exactly if it is allowed, a run keeps `P` exactly if it is a run
of allowed steps. -/
theorem throughout_iff_along {good : ε → Prop} {I P : σ → Prop}
    (hI : ∀ s e s', good e → I s → step s e = some s' → I s')
    (hok : ∀ s e, good e → I s → P s → (ok s e ↔ ∀ s', step s e = some s' → P s')) :
    ∀ (es : List ε) {s : σ}, (∀ e ∈ es, good e) → I s → P s →
      (Throughout step P s es ↔ Along step ok s es)
  | [], _, _, _, hs => iff_of_true hs trivial
  | e :: es, s, hgood, hIs, hs => by
    have he := hgood e List.mem_cons_self
    have hes : ∀ f ∈ es, good f := fun f hf => hgood f (List.mem_cons_of_mem e hf)
    have hrec := fun s' hs' => throughout_iff_along hI hok es (s := s') hes (hI s e s' he hIs hs')
    constructor
    · intro h
      refine ⟨(hok s e he hIs hs).mpr fun s' hs' => (h.2 s' hs').head, fun s' hs' => ?_⟩
      exact (hrec s' hs' (h.2 s' hs').head).mp (h.2 s' hs')
    · intro h
      have hP := (hok s e he hIs hs).mp h.1
      exact ⟨hs, fun s' hs' => (hrec s' hs' (hP s' hs')).mpr (h.2 s' hs')⟩

/-- Where allowed abstract steps are simulated, so are runs of them. -/
theorem Along.simulates {P : τ → ε → Prop}
    (hstep : ∀ c a e a', R c a → P a e → astep a e = some a' →
      ∃ c', cstep c e = some c' ∧ R c' a') :
    ∀ (es : List ε) {c : σ} {a a' : τ}, Along astep P a es → R c a → run astep a es = some a' →
      ∃ c', run cstep c es = some c' ∧ R c' a'
  | [], c, _, _, _, hR, h => ⟨c, rfl, Option.some.inj h ▸ hR⟩
  | e :: es, c, a, _, hok, hR, h => by
    obtain ⟨b, hb, hrun⟩ := run_cons_eq_some.mp h
    obtain ⟨c', hc', hR'⟩ := hstep c a e b hR hok.1 hb
    obtain ⟨d, hd, hRd⟩ := Along.simulates hstep es (hok.2 b hb) hR' hrun
    exact ⟨d, run_cons_eq_some.mpr ⟨c', hc', hd⟩, hRd⟩

/-- Where each abstract step is simulated, so is every run. -/
theorem run_simulates
    (hstep : ∀ c a e a', R c a → astep a e = some a' → ∃ c', cstep c e = some c' ∧ R c' a')
    (es : List ε) {c : σ} {a a' : τ} (hR : R c a) (h : run astep a es = some a') :
    ∃ c', run cstep c es = some c' ∧ R c' a' :=
  Along.simulates (P := fun _ _ => True) (fun c a e a' hR _ => hstep c a e a' hR) es
    (Along.of_forall es a fun _ _ => trivial) hR h

end OpBase.Lib
