import XetCore.Lib.Extent

/-! # Patches of a list

A patch replaces a range of positions by other content. Patches in order are applied
from left to right. They can be applied in groups, and the length of the result tells
whether a patch took more of the list than it replaced.
-/
namespace XetCore.Patches
open Extents List

variable {α : Type*}

structure Patch (α : Type*) where
  start : ℕ
  stop : ℕ
  content : List α

/-- The part of the list from a position up to `stop`, with the patches applied. -/
def patch (xs : List α) (stop : ℕ) : ℕ → List (Patch α) → List α
  | pos, [] => slice xs pos stop
  | pos, p :: ps => slice xs pos p.start ++ p.content ++ patch xs stop p.stop ps

def Fits (stop : ℕ) : ℕ → List (Patch α) → Prop
  | pos, [] => pos ≤ stop
  | pos, p :: ps => pos ≤ p.start ∧ p.start ≤ p.stop ∧ Fits stop p.stop ps

def removed (ps : List (Patch α)) : ℕ := (ps.map fun p => p.stop - p.start).sum

def added (ps : List (Patch α)) : ℕ := (ps.map fun p => p.content.length).sum

variable {xs : List α} {stop mid pos : ℕ} {ps as bs : List (Patch α)}

theorem Fits.le (h : Fits stop pos ps) : pos ≤ stop := by
  induction ps generalizing pos with
  | nil => exact h
  | cons p ps ih => exact (h.1.trans h.2.1).trans (ih h.2.2)

theorem Fits.mono {pos' : ℕ} (h : Fits stop pos ps) (hle : pos' ≤ pos) : Fits stop pos' ps := by
  cases ps with
  | nil => exact hle.trans h
  | cons p ps => exact ⟨hle.trans h.1,h.2⟩

theorem Fits.shrink (h : Fits stop pos ps) (hle : pos ≤ mid) (hps : ∀ p ∈ ps, p.stop ≤ mid) :
    Fits mid pos ps := by
  induction ps generalizing pos with
  | nil => exact hle
  | cons p ps ih =>
    obtain ⟨hp,hr⟩ := forall_mem_cons.mp hps
    exact ⟨h.1,h.2.1,ih h.2.2 hp hr⟩

theorem Fits.append (ha : Fits mid pos as) (hb : Fits stop mid bs) : Fits stop pos (as ++ bs) := by
  induction as generalizing pos with
  | nil => exact hb.mono ha
  | cons a as ih => exact ⟨ha.1,ha.2.1,ih ha.2.2⟩

theorem Fits.of_sorted (hso : ps.Pairwise fun p q => p.stop ≤ q.start) (hle : ∀ p ∈ ps, p.start ≤ p.stop)
    (hpo : ∀ p ∈ ps, pos ≤ p.start) (hs : ∀ p ∈ ps, p.stop ≤ stop) (h : pos ≤ stop) :
    Fits stop pos ps := by
  induction ps generalizing pos with
  | nil => exact h
  | cons p ps ih =>
    obtain ⟨hp,hr⟩ := pairwise_cons.mp hso
    refine ⟨hpo p (by simp),hle p (by simp),?_⟩
    exact ih hr (fun q hq => hle q (by simp [hq])) hp (fun q hq => hs q (by simp [hq])) (hs p (by simp))

theorem patch_skip (hle : pos ≤ mid) (h : Fits stop mid ps) :
    patch xs stop pos ps = slice xs pos mid ++ patch xs stop mid ps := by
  cases ps with
  | nil => exact (slice_append_slice xs hle h).symm
  | cons p ps => simp [patch,← slice_append_slice xs hle h.1]

theorem patch_append (ha : Fits mid pos as) (hb : Fits stop mid bs) :
    patch xs stop pos (as ++ bs) = patch xs mid pos as ++ patch xs stop mid bs := by
  induction as generalizing pos with
  | nil => exact patch_skip ha hb
  | cons a as ih => simp [patch,ih ha.2.2]

theorem patch_length (hst : stop ≤ xs.length) (h : Fits stop pos ps) :
    (patch xs stop pos ps).length + removed ps + pos = stop + added ps := by
  induction ps generalizing pos with
  | nil =>
    have hle : pos ≤ stop := h
    rw [patch,slice_length hst]
    simp only [removed,added,map_nil]
    omega
  | cons p ps ih =>
    have hr := ih h.2.2
    have hle := h.2.2.le
    obtain ⟨hpo,hp,-⟩ := h
    have hs : (slice xs pos p.start).length = p.start - pos := slice_length (by omega)
    simp only [patch,removed,added,length_append,map_cons,sum_cons] at hr ⊢
    omega

section Groups

structure PatchGroup (α : Type*) where
  start : ℕ
  stop : ℕ
  inner : List (Patch α)

/-- The patch that has the effect of all patches of the group. -/
def PatchGroup.outer (xs : List α) (g : PatchGroup α) : Patch α :=
  ⟨g.start,g.stop,patch xs g.stop g.start g.inner⟩

variable {gs : List (PatchGroup α)}

section
variable (hin : ∀ g ∈ gs, Fits g.stop g.start g.inner) (h : Fits stop pos (gs.map (PatchGroup.outer xs)))
include hin h

theorem Fits.flatMap : Fits stop pos (gs.flatMap PatchGroup.inner) := by
  induction gs generalizing pos with
  | nil => exact h
  | cons g gs ih =>
    obtain ⟨hg,hr⟩ := forall_mem_cons.mp hin
    exact (hg.mono h.1).append (ih hr h.2.2)

theorem patch_groups :
    patch xs stop pos (gs.flatMap PatchGroup.inner) =
      patch xs stop pos (gs.map (PatchGroup.outer xs)) := by
  induction gs generalizing pos with
  | nil => rfl
  | cons g gs ih =>
    obtain ⟨hg,hr⟩ := forall_mem_cons.mp hin
    obtain ⟨hs,-,ht⟩ := h
    have hr' : patch xs stop g.stop (gs.flatMap PatchGroup.inner) =
      patch xs stop g.stop (gs.map (PatchGroup.outer xs)) :=
      ih hr ht
    rw [flatMap_cons,patch_append (hg.mono hs) (Fits.flatMap hr ht),hr',patch_skip hs hg]
    rfl

end

end Groups

section Stretch
variable {f : ℕ → ℕ}

def Patch.stretch (f : ℕ → ℕ) (p : Patch α) : Patch α := ⟨p.start,f p.stop,p.content⟩

theorem removed_stretch (hp : Fits stop pos ps) (hf : ∀ p ∈ ps, p.stop ≤ f p.stop) :
    removed ps ≤ removed (ps.map (Patch.stretch f)) ∧
      (removed (ps.map (Patch.stretch f)) = removed ps → ∀ p ∈ ps, f p.stop = p.stop) := by
  induction ps generalizing pos with
  | nil => simp
  | cons p ps ih =>
    obtain ⟨hle,hr⟩ := forall_mem_cons.mp hf
    obtain ⟨hsu,heq⟩ := ih hp.2.2 hr
    have hs := hp.2.1
    simp only [removed,map_cons,sum_cons,Patch.stretch] at hsu heq ⊢
    refine ⟨by omega,fun ha => forall_mem_cons.mpr ⟨by omega,heq (by omega)⟩⟩

theorem patch_stretch_eq_iff (hst : stop ≤ xs.length) (hp : Fits stop pos ps)
    (hs : Fits stop pos (ps.map (Patch.stretch f))) (hf : ∀ p ∈ ps, p.stop ≤ f p.stop) :
    patch xs stop pos (ps.map (Patch.stretch f)) = patch xs stop pos ps ↔
      ∀ p ∈ ps, f p.stop = p.stop := by
  constructor
  · intro heq
    have hlen := patch_length hst hp
    have hlen' := patch_length hst hs
    rw [heq,show added (ps.map (.stretch f)) =
      added ps by simp [added,Patch.stretch,Function.comp_def]] at hlen'
    exact (removed_stretch hp hf).2 (by omega)
  · intro ha
    congr 1
    refine (map_congr_left fun p hp => ?_).trans (map_id ps)
    rw [Patch.stretch,ha p hp]
    rfl

end Stretch
end XetCore.Patches
