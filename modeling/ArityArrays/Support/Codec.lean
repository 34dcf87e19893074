import ArityArrays.Support.Checked

/-!
# Forms and codecs

A form writes contents and reads them back; an input that fits it is the
writing of exactly one content.  A codec encodes the states of a component and
decodes inputs to states, or refuses them.  When it encodes what a state
stands for and accepts the inputs that fit, decoding and encoding are inverse
to each other.

Nothing here refers to a particular program.
-/

/-- A bijection between contents and the inputs that fit. -/
structure Form (μ ε : Type) where
  write : μ → ε
  read : ε → μ
  fits : ε → Prop
  fits_write : ∀ m, fits (write m)
  read_write : ∀ m, read (write m) = m
  write_read : ∀ e, fits e → write (read e) = e

theorem Form.write_injective {μ ε : Type} (f : Form μ ε) :
    Function.Injective f.write :=
  Function.LeftInverse.injective f.read_write

/-- An encoder of states, and a decoder that may refuse its input. -/
structure Codec (σ ε δ : Type) where
  encode : σ → Checked ε
  decode : ε → Checked (Except δ σ)

namespace Codec

variable {σ τ μ ε δ : Type}

/-- The decoder answers every input.  It accepts those that fit, and an
accepted input is what its state is encoded as. -/
structure Canonical (c : Codec σ ε δ) (fits : ε → Prop) : Prop where
  accepts : ∀ e, (∃ a, c.decode e = .ok (.ok a)) ↔ fits e
  refuses : ∀ e, (∃ error, c.decode e = .ok (.error error)) ↔ ¬fits e
  reencode : ∀ e a, c.decode e = .ok (.ok a) → c.encode a = .ok e

/-- The codec of a form, for states that stand for contents. -/
structure Implements (c : Codec σ ε δ) (R : σ → μ → Prop) (f : Form μ ε) :
    Prop where
  encode : ∀ {a m}, R a m → c.encode a = .ok (f.write m)
  accept : ∀ {e}, f.fits e → ∃ a, c.decode e = .ok (.ok a) ∧ R a (f.read e)
  refuse : ∀ {e}, ¬f.fits e → ∃ error, c.decode e = .ok (.error error)

variable {c : Codec σ ε δ} {R : σ → μ → Prop} {f : Form μ ε} {a : σ} {m : μ}

/-- A decoded input fits, and its state stands for what it is read as. -/
theorem Implements.of_decode (h : c.Implements R f) {e : ε}
    (ha : c.decode e = .ok (.ok a)) : f.fits e ∧ R a (f.read e) := by
  by_cases he : f.fits e
  · obtain ⟨b, hb, hread⟩ := h.accept he
    rw [ha] at hb
    cases hb
    exact ⟨he, hread⟩
  · obtain ⟨error, herror⟩ := h.refuse he
    rw [ha] at herror
    cases herror

theorem Implements.canonical (h : c.Implements R f) : c.Canonical f.fits where
  accepts e := by
    refine ⟨fun ⟨a, ha⟩ => (h.of_decode ha).1, fun he => ?_⟩
    obtain ⟨a, ha, -⟩ := h.accept he
    exact ⟨a, ha⟩
  refuses e := by
    refine ⟨fun ⟨error, herror⟩ he => ?_, h.refuse⟩
    obtain ⟨a, ha, -⟩ := h.accept he
    rw [ha] at herror
    cases herror
  reencode e a ha := by
    obtain ⟨he, hread⟩ := h.of_decode ha
    rw [h.encode hread, f.write_read e he]

/-- Decoding what a state is encoded as gives its contents back. -/
theorem Implements.roundTrip (h : c.Implements R f) (ha : R a m) :
    ∃ e b, c.encode a = .ok e ∧ c.decode e = .ok (.ok b) ∧ R b m := by
  obtain ⟨b, hdecode, hb⟩ := h.accept (f.fits_write m)
  rw [f.read_write] at hb
  exact ⟨f.write m, b, h.encode ha, hdecode, hb⟩

/-- Two codecs of one form encode alike exactly what has the same contents. -/
theorem Implements.encode_eq_iff (h : c.Implements R f) {c' : Codec τ ε δ}
    {S : τ → μ → Prop} (h' : c'.Implements S f) {b : τ} {m' : μ} (ha : R a m)
    (hb : S b m') : c.encode a = c'.encode b ↔ m = m' := by
  rw [h.encode ha, h'.encode hb, Except.ok.injEq]
  exact f.write_injective.eq_iff

end Codec
