import RangeTransfer.Proofs.Transfer.Window
/-!
# Chunks that fit the window

The chunk that a transfer uses is the requested one if that fits the window for all workers, and
else the largest one that does (`TransferSettings.FitsWindow`). Whether it fits is judged by a product
that stops at the last number. So a window of that size takes every chunk, even one whose product with
the workers is past it, and only there the rule fails (`effectiveChunk_fitsWindow_iff`).
-/

namespace RangeTransfer

theorem Offset.mulCapped_le_iff {a b cap : Nat} :
    mulCapped a b ≤ cap ↔ a * b ≤ cap ∨ last ≤ cap := by
  unfold mulCapped
  omega

theorem capWindow_of_le {chunk workers cap : Nat} (hpos : 0 < workers)
    (h : Offset.mulCapped chunk workers ≤ cap) : capWindow chunk workers cap = chunk := by
  simp only [capWindow, Nat.max_eq_left hpos, if_pos h]

theorem capWindow_of_lt {chunk workers cap : Nat} (hpos : 0 < workers) (hcap : workers ≤ cap)
    (h : cap < Offset.mulCapped chunk workers) : capWindow chunk workers cap = cap / workers := by
  simp only [capWindow, Nat.max_eq_left hpos, if_neg (Nat.not_le.mpr h),
    Nat.max_eq_left (Nat.div_pos hcap hpos)]

namespace TransferSettings

variable {c : TransferSettings} {chunk workers : Nat}

/-- Chunks of `e` bytes for all workers fit the window, and `e` is the requested chunk if that fits,
and else the largest one that does. -/
structure FitsWindow (c : TransferSettings) (chunk workers e : Nat) : Prop where
  pos : 1 ≤ e
  le_chunk : e ≤ max chunk 1
  fits : e * workers ≤ c.windowCap
  whole : max chunk 1 * workers ≤ c.windowCap → e = max chunk 1
  largest : c.windowCap < max chunk 1 * workers → ∀ e', e' * workers ≤ c.windowCap → e' ≤ e

theorem fitsWindow_whole (h : max chunk 1 * workers ≤ c.windowCap) :
    c.FitsWindow chunk workers (max chunk 1) :=
  ⟨Nat.le_max_right _ _, Nat.le_refl _, h, fun _ => rfl, fun hlt => absurd h (Nat.not_le.mpr hlt)⟩

theorem fitsWindow_div (hpos : 0 < workers) (hcap : workers ≤ c.windowCap)
    (h : c.windowCap < max chunk 1 * workers) :
    c.FitsWindow chunk workers (c.windowCap / workers) := by
  refine ⟨Nat.div_pos hcap hpos, ?_, Nat.div_mul_le_self _ _,
    fun hle => absurd h (Nat.not_lt.mpr hle), fun _ e' he' => (Nat.le_div_iff_mul_le hpos).mpr he'⟩
  exact Nat.le_of_lt ((Nat.div_lt_iff_lt_mul hpos).mpr h)

/-- The chunk of a transfer fits the window in this sense exactly if the requested chunk does for
all workers or the window is below the last number. It never is zero or more than requested, and a
requested chunk that fits is kept. -/
theorem effectiveChunk_fitsWindow_iff (c : TransferSettings) (chunk requested : Nat)
    (layout : LayoutKind) :
    let w := clampWorkers requested layout
    let e := c.effectiveChunk chunk w
    (c.FitsWindow chunk w e ↔ max chunk 1 * w ≤ c.windowCap ∨ c.windowCap < Offset.last) ∧
    1 ≤ e ∧ e ≤ max chunk 1 ∧ (max chunk 1 * w ≤ c.windowCap → e = max chunk 1) ∧
    (Offset.last ≤ c.windowCap → e = max chunk 1) := by
  intro w e
  have hpos : 0 < w := clampWorkers_pos requested layout
  have hcap : w ≤ c.windowCap := c.clampWorkers_le_windowCap requested layout
  have hkept : max chunk 1 * w ≤ c.windowCap ∨ Offset.last ≤ c.windowCap → e = max chunk 1 :=
    fun h => capWindow_of_le hpos (Offset.mulCapped_le_iff.mpr h)
  have hcut : c.windowCap < max chunk 1 * w → c.windowCap < Offset.last → e = c.windowCap / w :=
    fun h hlast => capWindow_of_lt hpos hcap (Nat.lt_min.mpr ⟨h, hlast⟩)
  by_cases hfits : max chunk 1 * w ≤ c.windowCap
  · have hrule := fitsWindow_whole hfits
    rw [← hkept (Or.inl hfits)] at hrule
    exact ⟨iff_of_true hrule (Or.inl hfits), hrule.pos, hrule.le_chunk, hrule.whole,
      fun _ => hkept (Or.inl hfits)⟩
  · have hover := Nat.not_le.mp hfits
    by_cases hlast : c.windowCap < Offset.last
    · have hrule := fitsWindow_div hpos hcap hover
      rw [← hcut hover hlast] at hrule
      exact ⟨iff_of_true hrule (Or.inr hlast), hrule.pos, hrule.le_chunk, hrule.whole,
        fun h => absurd hlast (Nat.not_lt.mpr h)⟩
    · have he := hkept (Or.inr (Nat.not_lt.mp hlast))
      refine ⟨iff_of_false (fun hrule => hfits (he ▸ hrule.fits)) (not_or.mpr ⟨hfits, hlast⟩),
        he ▸ Nat.le_max_right _ _, Nat.le_of_eq he, fun _ => he, fun _ => he⟩

/-- In a window of the last number two workers keep a chunk of the last number each. -/
theorem not_fitsWindow_last :
    let c : TransferSettings := { standard with windowBytes := Offset.last }
    let w := clampWorkers 2 .direct
    w = 2 ∧ c.windowCap = Offset.last ∧ c.effectiveChunk Offset.last w = Offset.last ∧
    c.windowCap < c.effectiveChunk Offset.last w * w ∧
    ¬ c.FitsWindow Offset.last w (c.effectiveChunk Offset.last w) := by
  intro c w
  have hover : c.windowCap < c.effectiveChunk Offset.last w * w := by decide
  exact ⟨rfl, by decide, by decide, hover, fun h => absurd h.fits (Nat.not_le.mpr hover)⟩

end TransferSettings

end RangeTransfer
