import Easy.Base.Config

/-!
What `ConfigVar::fromString` reports (`easy/base/Config.h`).

The function returns false behind its `try` block and has no other `return`, so that the result
says nothing. It is right where the text cannot be converted. For a value that is not equal to
itself it is right if the variable has that value already and no listener.
-/

namespace Easy.Base

namespace ConfigVar

variable {τ : Type} {E : TypeEnv τ} {T : τ} {c : ConfigVar (E.Val T)} {val : String}

/-! ### What `fromString` does -/

theorem fromString_none (h : E.fromStr T val = none) : c.fromString val = (c, [], false) := by
  rw [fromString, h]

/-- A value that `==` takes for the present one. -/
theorem fromString_same {v : E.Val T} (h : E.fromStr T val = some v) (heq : E.eq T v c.val) :
    c.fromString val = (c, [], false) := by
  rw [fromString, h]
  simp [setValue, heq]

theorem fromString_other {v : E.Val T} (h : E.fromStr T val = some v)
    (hne : E.eq T v c.val = false) : c.fromString val =
      (if (notify c.val v c.cbs).2 then { c with val := v } else c,
        (notify c.val v c.cbs).1, false) := by
  rw [fromString, h]
  simp [setValue, hne]

/-- The first listener is called with the new value. -/
theorem notify_cons (old new : E.Val T) (k : ℕ × ℕ) (cbs : List (ℕ × ℕ)) :
    ⟨k.2, T, old, new⟩ ∈ (notify (E := E) old new (k :: cbs)).1 := by
  rw [notify]
  split
  · exact List.mem_singleton_self _
  · exact List.mem_cons_self

theorem fromString_false : (c.fromString val).2.2 = false := by
  cases h : E.fromStr T val with
  | none => rw [fromString_none h]
  | some v =>
      cases heq : E.eq T v c.val with
      | true => rw [fromString_same h heq]
      | false => rw [fromString_other h heq]

/-! ### What it should report -/

/-- A call that leaves `c'`, makes `calls` and returns `r` reports whether it has applied the
value, and where it says that it has not, it has not begun to. -/
structure Reports (c : ConfigVar (E.Val T)) (val : String)
    (r : ConfigVar (E.Val T) × List (ListenerCall E) × Bool) : Prop where
  true_iff : r.2.2 = true ↔ ∃ v, E.fromStr T val = some v ∧ E.eq T v r.1.val
  unchanged : r.2.2 = false → r.1.val = c.val
  not_called : r.2.2 = false → ∀ v, E.fromStr T val = some v →
    ∀ k old, ⟨k, T, old, v⟩ ∉ r.2.1

/-- **`fromString`** reports what it does if and only if the conversion fails, or gives the
present value, which is not equal to itself, and there is no listener. -/
theorem reports_fromString_iff (c : ConfigVar (E.Val T)) (val : String) :
    c.Reports val (c.fromString val) ↔ E.fromStr T val = none ∨
      E.fromStr T val = some c.val ∧ E.eq T c.val c.val = false ∧ c.cbs = [] := by
  cases h : E.fromStr T val with
  | none =>
      rw [fromString_none h]
      refine iff_of_true ⟨?_, fun _ => rfl, fun _ v _ _ _ => List.not_mem_nil⟩ (.inl rfl)
      simp [h]
  | some v =>
      constructor
      · intro hreports
        -- the result is false, so it must not be equal to what is there now
        have hfalse : (c.fromString val).2.2 = false := fromString_false
        have hval := hreports.unchanged hfalse
        have hne : E.eq T v c.val = false := by
          rw [Bool.eq_false_iff]
          intro heq
          have htrue := hreports.true_iff.mpr ⟨v, h, by rwa [hval]⟩
          rw [hfalse] at htrue
          cases htrue
        have hcbs : c.cbs = [] := by
          cases hc : c.cbs with
          | nil => rfl
          | cons k cbs =>
              have hcalled := hreports.not_called hfalse v h k.2 c.val
              rw [fromString_other h hne, hc] at hcalled
              exact absurd (notify_cons c.val v k cbs) hcalled
        have hv : v = c.val := by
          rw [fromString_other h hne, hcbs] at hval
          exact hval
        exact .inr ⟨congrArg some hv, hv ▸ hne, hcbs⟩
      · rintro (hnone | ⟨hv, hne, hcbs⟩)
        · cases hnone
        obtain rfl : v = c.val := Option.some.inj hv
        rw [fromString_other h hne, hcbs]
        refine ⟨iff_of_false (by simp) ?_, fun _ => rfl, fun _ _ _ _ _ => List.not_mem_nil⟩
        rintro ⟨w, hw, heq⟩
        obtain rfl : c.val = w := Option.some.inj (h.symm.trans hw)
        exact absurd heq (by simpa [notify] using hne)

/-- Texts that are their own values. -/
abbrev textEnv : TypeEnv Unit where
  Val _ := String
  eq _ a b := a == b
  fromStr _ s := some s
  throws _ _ _ _ := false

/-- A text that is set is reported like one that is not. -/
theorem reports_fromString_false :
    ((⟨"a", []⟩ : ConfigVar (textEnv.Val ())).fromString "b").1.val = "b" ∧
      ¬(⟨"a", []⟩ : ConfigVar (textEnv.Val ())).Reports "b"
        ((⟨"a", []⟩ : ConfigVar (textEnv.Val ())).fromString "b") := by
  refine ⟨rfl, fun h => ?_⟩
  have hsame : "b" = "a" := h.unchanged rfl
  exact absurd hsame (by decide)

end ConfigVar

end Easy.Base
