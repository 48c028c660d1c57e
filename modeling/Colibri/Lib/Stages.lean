import Colibri.Lib.Chunks
import Colibri.Lib.Vectors

/-!
# Calls in stages

A stage gives an output for every element and may be cut anywhere (`Stage`). Loops that
carry a state are stages (`stage_scan`), and stages are put together: one behind the other
(`Stage.andThen`), with a function of each element in front or behind (`Stage.before`,
`Stage.after`), beside something that is only carried along (`Stage.beside`) or another
stage (`Stage.par`), and over a state that is kept in a larger one (`Stage.via`).

A mixer of a model is put together from such calls, and splits because each of them does. So the
proof for a mixer names its stages, and there is no induction in it.
-/

namespace Colibri.Chunks

variable {σ τ α β γ : Type}

/-- An output for every element, whichever way the elements are cut. -/
structure Stage (call : Call σ α β) : Prop where
  length : ∀ st x out st', call st x = some (out, st') → out.length = x.length
  split : ∀ st x y, x ≠ [] → y ≠ [] → call st (x ++ y) = call.followed st x y

theorem Stage.splits {call : Call σ α β} (h : Stage call) : Splits call fun _ _ => True where
  keeps _ _ _ _ _ _ _ _ := trivial
  split st x y _ hx hy := h.split st x y hx hy

/-! ## Loops -/

/-- A step for every element, carrying a state. -/
def scan (step : σ → α → Option (β × σ)) : Call σ α β
  | st, [] => some ([], st)
  | st, a :: as => (step st a).bind fun r => (scan step r.2 as).map fun rs => (r.1 :: rs.1, rs.2)

/-- A loop over two stretches is a loop over the first and one over the second. -/
theorem scan_append {step : σ → α → Option (β × σ)} {st : σ} {x y : List α} :
    scan step st (x ++ y) = (scan step).followed st x y := by
  induction x generalizing st with
  | nil => simp [scan, Call.followed]
  | cons a x ih =>
    unfold Call.followed at ih ⊢
    rw [List.cons_append, scan, scan]
    cases step st a with
    | none => rfl
    | some r =>
      simp only [Option.bind_some, ih]
      cases scan step r.2 x with
      | none => rfl
      | some rs =>
        simp only [Option.bind_some, Option.map_some]
        cases scan step rs.2 y <;> rfl

/-- **A loop that carries a state is a stage.** -/
theorem stage_scan (step : σ → α → Option (β × σ)) : Stage (scan step) where
  length st x out st' h := by
    induction x generalizing st out with
    | nil =>
      cases h
      rfl
    | cons a x ih =>
      obtain ⟨r, _, h⟩ := Option.bind_eq_some_iff.mp h
      obtain ⟨rs, hrs, heq⟩ := Option.map_eq_some_iff.mp h
      cases heq
      rw [List.length_cons, List.length_cons, ih r.2 rs.1 hrs]
  split _ _ _ _ _ := scan_append

theorem mapM_append (f : α → Option β) (x y : List α) :
    (x ++ y).mapM f = (x.mapM f).bind fun xs => (y.mapM f).map (xs ++ ·) := by
  rw [List.mapM_append]
  simp only [Option.bind_eq_bind, Option.map_eq_bind]
  rfl

theorem mapM_bind (f : α → Option β) (g : β → Option γ) (x : List α) :
    (x.mapM f).bind (·.mapM g) = x.mapM fun a => (f a).bind g := by
  have hg : mapFrom (fun _ => g) 0 = fun bs : List β => bs.mapM g := funext (mapFrom_const g 0)
  rw [← mapFrom_const f 0, ← hg, mapFrom_bind, mapFrom_const]

/-! ## Putting stages together -/

/-- A function of each element, and then a call. -/
def Call.before (f : α → Option β) (g : Call σ β γ) : Call σ α γ := fun st x =>
  (x.mapM f).bind (g st)

/-- A function of each element that does not panic, and then a call. -/
def Call.comap (g : α → β) (f : Call σ β γ) : Call σ α γ := fun st x => f st (x.map g)

/-- A call, and then a function of each output. -/
def Call.after (g : Call σ α β) (f : β → Option γ) : Call σ α γ := fun st x =>
  (g st x).bind fun r => (r.1.mapM f).map fun out => (out, r.2)

/-- A call over the outputs of another. -/
def Call.andThen (f : Call σ α β) (g : Call τ β γ) : Call (σ × τ) α γ := fun st x =>
  (f st.1 x).bind fun r => (g st.2 r.1).map fun r' => (r'.1, r.2, r'.2)

/-- A call over the first components. -/
def Call.beside (f : Call σ α β) : Call σ (α × γ) (β × γ) := fun st x =>
  (f st (x.map Prod.fst)).map fun r => (r.1.zip (x.map Prod.snd), r.2)

/-- Two calls, each over a component. -/
def Call.par {α' β' : Type} (f : Call σ α β) (g : Call τ α' β') :
    Call (σ × τ) (α × α') (β × β') := fun st x =>
  (f st.1 (x.map Prod.fst)).bind fun r => (g st.2 (x.map Prod.snd)).map fun r' =>
    (r.1.zip r'.1, r.2, r'.2)

/-- A call over the part of a state that `get` reads and `put` writes. -/
def Call.via (get : τ → σ) (put : τ → σ → τ) (f : Call σ α β) : Call τ α β := fun st x =>
  (f (get st) x).map fun r => (r.1, put st r.2)

namespace Stage

theorem ne_nil {x : List α} {out : List β} (h : out.length = x.length) (hx : x ≠ []) :
    out ≠ [] := by
  intro hnil
  rw [hnil, List.length_nil] at h
  exact hx (List.eq_nil_of_length_eq_zero h.symm)

theorem before {g : Call σ β γ} (hg : Stage g) (f : α → Option β) : Stage (g.before f) where
  length st x out st' h := by
    obtain ⟨xs, hxs, h⟩ := Option.bind_eq_some_iff.mp h
    rw [hg.length st xs out st' h, (Vectors.of_mapM hxs).1]
  split st x y hx hy := by
    unfold Call.followed Call.before
    rw [mapM_append]
    cases hxs : x.mapM f with
    | none => rfl
    | some xs =>
      simp only [Option.bind_some]
      cases hys : y.mapM f with
      | none =>
        simp only [Option.bind_none, Option.map_none, Option.bind_fun_none]
      | some ys =>
        simp only [Option.map_some, Option.bind_some]
        exact hg.split st xs ys (ne_nil (Vectors.of_mapM hxs).1 hx)
          (ne_nil (Vectors.of_mapM hys).1 hy)

theorem comap {f : Call σ β γ} (hf : Stage f) (g : α → β) : Stage (f.comap g) where
  length st x out st' h := by
    rw [hf.length st (x.map g) out st' h, List.length_map]
  split st x y hx hy := by
    have hx' : x.map g ≠ [] := fun hnil => hx (List.map_eq_nil_iff.mp hnil)
    have hy' : y.map g ≠ [] := fun hnil => hy (List.map_eq_nil_iff.mp hnil)
    unfold Call.followed Call.comap
    rw [List.map_append]
    exact hf.split st (x.map g) (y.map g) hx' hy'

theorem none : Stage fun (_ : σ) (_ : List α) => (Option.none : Option (List β × σ)) where
  length _ _ _ _ h := by cases h
  split _ _ _ _ _ := rfl

/-- A function of each output behind a stage. -/
theorem after {g : Call σ α β} (hg : Stage g) (f : β → Option γ) : Stage (g.after f) where
  length st x out st' h := by
    obtain ⟨r, hr, h⟩ := Option.bind_eq_some_iff.mp h
    obtain ⟨ys, hys, heq⟩ := Option.map_eq_some_iff.mp h
    cases heq
    rw [(Vectors.of_mapM hys).1, hg.length st x r.1 r.2 hr]
  split st x y hx hy := by
    unfold Call.followed Call.after
    rw [hg.split st x y hx hy, Call.followed]
    cases g st x with
    | none => rfl
    | some r =>
      simp only [Option.bind_some]
      cases hys : g r.2 y with
      | none => cases r.1.mapM f <;> simp [hys]
      | some r' =>
        simp only [Option.map_some, Option.bind_some, mapM_append]
        cases r.1.mapM f with
        | none => rfl
        | some out =>
          simp only [Option.map_some, Option.bind_some, hys]
          cases r'.1.mapM f <;> rfl

/-- Two stages, one behind the other. -/
theorem andThen {f : Call σ α β} {g : Call τ β γ} (hf : Stage f) (hg : Stage g) :
    Stage (f.andThen g) where
  length st x out st' h := by
    obtain ⟨r, hr, h⟩ := Option.bind_eq_some_iff.mp h
    obtain ⟨r', hr', heq⟩ := Option.map_eq_some_iff.mp h
    cases heq
    rw [hg.length st.2 r.1 r'.1 r'.2 hr', hf.length st.1 x r.1 r.2 hr]
  split st x y hx hy := by
    unfold Call.followed Call.andThen
    rw [hf.split st.1 x y hx hy, Call.followed]
    cases hxs : f st.1 x with
    | none => rfl
    | some r =>
      simp only [Option.bind_some]
      cases hys : f r.2 y with
      | none => cases g st.2 r.1 <;> simp [hys]
      | some s =>
        have hr := ne_nil (hf.length st.1 x r.1 r.2 hxs) hx
        have hs := ne_nil (hf.length r.2 y s.1 s.2 hys) hy
        simp only [Option.map_some, Option.bind_some]
        rw [hg.split st.2 r.1 s.1 hr hs, Call.followed]
        cases g st.2 r.1 with
        | none => rfl
        | some r' =>
          simp only [Option.map_some, Option.bind_some, hys]
          cases g r'.2 s.1 <;> rfl

/-- A stage beside something that is carried along. -/
theorem beside {f : Call σ α β} (hf : Stage f) : Stage (f.beside : Call σ (α × γ) (β × γ)) where
  length st x out st' h := by
    obtain ⟨r, hr, heq⟩ := Option.map_eq_some_iff.mp h
    cases heq
    have hlen := hf.length st _ r.1 r.2 hr
    rw [List.length_map] at hlen
    rw [List.length_zip, List.length_map, hlen, Nat.min_self]
  split st x y hx hy := by
    have hx' : x.map Prod.fst ≠ [] := fun hnil => hx (List.map_eq_nil_iff.mp hnil)
    have hy' : y.map Prod.fst ≠ [] := fun hnil => hy (List.map_eq_nil_iff.mp hnil)
    unfold Call.followed Call.beside
    rw [List.map_append, List.map_append, hf.split st _ _ hx' hy', Call.followed]
    cases hxs : f st (x.map Prod.fst) with
    | none => rfl
    | some r =>
      have hlen := hf.length st _ r.1 r.2 hxs
      rw [List.length_map] at hlen
      simp only [Option.bind_some, Option.map_some]
      cases f r.2 (y.map Prod.fst) with
      | none => rfl
      | some s =>
        simp only [Option.map_some]
        rw [List.zip_append (by rw [hlen, List.length_map])]

/-- Two stages side by side. -/
theorem par {α' β' : Type} {f : Call σ α β} {g : Call τ α' β'} (hf : Stage f) (hg : Stage g) :
    Stage (f.par g) where
  length st x out st' h := by
    obtain ⟨r, hr, h⟩ := Option.bind_eq_some_iff.mp h
    obtain ⟨r', hr', heq⟩ := Option.map_eq_some_iff.mp h
    cases heq
    have hlen := hf.length st.1 _ r.1 r.2 hr
    have hlen' := hg.length st.2 _ r'.1 r'.2 hr'
    rw [List.length_map] at hlen hlen'
    rw [List.length_zip, hlen, hlen', Nat.min_self]
  split st x y hx hy := by
    have hne : ∀ {δ : Type} (p : α × α' → δ) (z : List (α × α')), z ≠ [] → z.map p ≠ [] :=
      fun p z hz hnil => hz (List.map_eq_nil_iff.mp hnil)
    unfold Call.followed Call.par
    rw [List.map_append, List.map_append, hf.split st.1 _ _ (hne _ x hx) (hne _ y hy),
      hg.split st.2 _ _ (hne _ x hx) (hne _ y hy), Call.followed, Call.followed]
    cases hfx : f st.1 (x.map Prod.fst) with
    | none => rfl
    | some r =>
      have hlen := hf.length st.1 _ r.1 r.2 hfx
      cases hgx : g st.2 (x.map Prod.snd) with
      | none =>
        simp only [Option.bind_some, Option.bind_none, Option.map_none, Option.bind_fun_none]
      | some r' =>
        have hlen' := hg.length st.2 _ r'.1 r'.2 hgx
        rw [List.length_map] at hlen hlen'
        simp only [Option.bind_some, Option.map_some]
        cases f r.2 (y.map Prod.fst) with
        | none => rfl
        | some s =>
          cases g r'.2 (y.map Prod.snd) with
          | none => rfl
          | some s' =>
            simp only [Option.bind_some, Option.map_some]
            rw [List.zip_append (by rw [hlen, hlen'])]

theorem via {f : Call σ α β} (hf : Stage f) {get : τ → σ} {put : τ → σ → τ}
    (get_put : ∀ t s, get (put t s) = s) (put_put : ∀ t s s', put (put t s) s' = put t s') :
    Stage (f.via get put) where
  length st x out st' h := by
    obtain ⟨r, hr, heq⟩ := Option.map_eq_some_iff.mp h
    cases heq
    exact hf.length (get st) x r.1 r.2 hr
  split st x y hx hy := by
    unfold Call.followed Call.via
    rw [hf.split (get st) x y hx hy, Call.followed]
    cases f (get st) x with
    | none => rfl
    | some r =>
      simp only [Option.bind_some, Option.map_some, get_put]
      cases f r.2 y with
      | none => rfl
      | some s =>
        simp only [Option.map_some, put_put]

end Stage

end Colibri.Chunks
