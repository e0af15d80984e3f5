import XetCore.Lib.Patch
import XetCore.RangeUpload.Edits

/-! # The edits of each window

Every edit lands in the one window that holds it. What a window uploads is its part of
the file with these edits, so the edited file is the original one with the windows
replaced by what they upload.
-/
namespace XetCore.RangeUpload
open Merkle Chunking Dedup Intervals Reconstruction Session Extents Patches List

variable {H : Type} {file : Bytes} {ds : List DirtyInput}

def DirtyInput.patch (d : DirtyInput) : Patch UInt8 := ⟨d.start,d.stop,d.bytes⟩

def edited (file : Bytes) (ds : List DirtyInput) : Bytes :=
  patch file file.length 0 (ds.map DirtyInput.patch)

section Size
variable {pos stop : ℕ}

theorem fits_patches (hs : ds.Pairwise fun a b => a.stop ≤ b.start) (hle : ∀ d ∈ ds, d.start ≤ d.stop)
    (hp : ∀ d ∈ ds, pos ≤ d.start) (hst : ∀ d ∈ ds, d.stop ≤ stop) (h : pos ≤ stop) :
    Fits stop pos (ds.map DirtyInput.patch) :=
  Fits.of_sorted (pairwise_map.mpr hs) (forall_mem_map.mpr hle) (forall_mem_map.mpr hp)
    (forall_mem_map.mpr hst) h

theorem removed_patches (ds : List DirtyInput) : removed (ds.map DirtyInput.patch) = removedBytes ds := by
  rw [removed,map_map]
  rfl

theorem added_patches (hr : Readable ds) : added (ds.map DirtyInput.patch) = addedBytes ds := by
  rw [added,map_map,addedBytes]
  refine congrArg List.sum (map_congr_left fun d hd => ?_)
  exact length_take_of_le (hr d hd)

theorem computeTotalSize_eq (hv : ValidEdits file.length ds) (hr : Readable ds) {total : ℕ}
    (h : computeTotalSize file.length ds = .ok total) : total = (edited file ds).length := by
  have hlen := patch_length le_rfl
    (fits_patches hv.sorted hv.start_le (fun _ _ => Nat.zero_le _) hv.stop_le
    (Nat.zero_le _))
  rw [removed_patches,added_patches hr,Nat.add_zero] at hlen
  have ht : (edited file ds).length = file.length + addedBytes ds - removedBytes ds := by
    rw [← hlen,Nat.add_sub_cancel]
    rfl
  dsimp only [computeTotalSize] at h
  split at h
  · rw [ht,Except.ok.inj h]
  · cases h

/-- What the cleaner of a window is fed with is the patched window. -/
theorem windowData_eq {readRange : FileRange → Bytes}
    (hra : ∀ r, r.stop ≤ file.length → readRange r = slice file r.start r.stop) (hs : stop ≤ file.length)
    (hre : Readable ds) (hf : Fits stop pos (ds.map DirtyInput.patch)) :
    windowData readRange stop pos ds = .ok (patch file stop pos (ds.map DirtyInput.patch)) := by
  have hp : ∀ {a b}, a ≤ b → b ≤ file.length →
    (if a < b then readRange ⟨a,b⟩ else []) = slice file a b := by
    intro a b hab hb
    split
    · exact hra ⟨a,b⟩ hb
    · obtain rfl : a = b := by omega
      exact (slice_self file a).symm
  induction ds generalizing pos with
  | nil => rw [windowData,hp hf hs,map_nil,patch]
  | cons d ds ih =>
    obtain ⟨hd,hds⟩ := forall_mem_cons.mp hre
    obtain ⟨hpo,hle,hr⟩ := hf
    have hbe : (if pos < d.originalRange.start then readRange ⟨pos,d.originalRange.start⟩ else []) =
        slice file pos d.start := hp hpo (hle.trans (hr.le.trans hs))
    have hne : readInput d = .ok d.bytes := if_pos hd
    have hn : windowData readRange stop d.originalRange.stop ds =
        .ok (patch file stop d.stop (ds.map DirtyInput.patch)) := ih hds hr
    rw [windowData,hne,hn,hbe]
    rfl

end Size

section Assign
variable {size : ℕ} {w : FileRange} {ws : List FileRange} {d : DirtyInput}
variable {client : UploadClient H}

/-- The edit lies in the window; an insert does not lie at the end, unless that is the end of the
file. -/
structure Holds (size : ℕ) (w : FileRange) (d : DirtyInput) : Prop where
  start_le : w.start ≤ d.start
  le_stop : d.stop ≤ w.stop
  insert_lt : d.start = d.stop → d.start < w.stop ∨ w.stop = size

/-- Windows in order that are not empty and lie in the file. -/
structure WindowsOk (size : ℕ) (ws : List FileRange) : Prop where
  sorted : ws.Pairwise fun a b => a.stop ≤ b.start
  lt : ∀ w ∈ ws, w.start < w.stop
  stop_le : ∀ w ∈ ws, w.stop ≤ size

section
variable (h : WindowsOk size (w :: ws))
include h

theorem WindowsOk.of_cons : WindowsOk size ws :=
  ⟨h.sorted.of_cons,fun v hv => h.lt v (by simp [hv]),fun v hv => h.stop_le v (by simp [hv])⟩

theorem WindowsOk.later {v : FileRange} (hv : v ∈ ws) (hd : Holds size v d) :
    w.stop ≤ d.start ∧ w.stop < size := by
  have hb := (pairwise_cons.mp h.sorted).1 v hv
  have hlt := h.lt v (by simp [hv])
  have hst := h.stop_le v (by simp [hv])
  have hs := hd.start_le
  omega

theorem landsIn_iff (hle : d.start ≤ d.stop) (hh : ∃ v ∈ w :: ws, Holds size v d) :
    landsIn size w d = true ↔ Holds size w d := by
  have hl : landsIn size w d = true ↔
      if d.start = d.stop then d.start < w.stop ∨ d.start = w.stop ∧ w.stop = size
        else d.stop ≤ w.stop := by
    unfold landsIn
    simp only
    split
    · simp
    · simp
  rw [hl]
  obtain ⟨v,hv,hd⟩ := hh
  rcases mem_cons.mp hv with rfl | hv
  · refine iff_of_true ?_ hd
    have hs := hd.le_stop
    split_ifs with hin
    · have := hd.insert_lt hin
      omega
    · exact hs
  · obtain ⟨hst,hsi⟩ := h.later hv hd
    refine iff_of_false ?_ fun hw => ?_
    · split <;> omega
    · have hs := hw.le_stop
      have := hw.insert_lt (by omega)
      omega

/-- One turn of the loop takes the edits that the window holds, and leaves the others to later
windows. -/
theorem takeWhile_landsIn (hs : ds.Pairwise fun a b => a.stop ≤ b.start)
    (hle : ∀ d ∈ ds, d.start ≤ d.stop) (hh : ∀ d ∈ ds, ∃ v ∈ w :: ws, Holds size v d) :
    (∀ d ∈ ds.takeWhile (landsIn size w), Holds size w d) ∧
      ∀ d ∈ ds.dropWhile (landsIn size w), ∃ v ∈ ws, Holds size v d := by
  refine ⟨fun d hd => ?_,?_⟩
  · have hmem := (takeWhile_sublist _).subset hd
    exact (landsIn_iff h (hle d hmem) (hh d hmem)).mp (mem_takeWhile_imp hd)
  · cases hdr : ds.dropWhile (landsIn size w) with
    | nil => simp
    | cons e es =>
      have hsu : ∀ d ∈ e :: es, d ∈ ds := fun d hd => (dropWhile_suffix _).subset (hdr ▸ hd)
      have hl : ∀ d ∈ ds, ¬Holds size w d → ∃ v ∈ ws, Holds size v d := by
        intro d hd hn
        obtain ⟨v,hv,hold⟩ := hh d hd
        rcases mem_cons.mp hv with rfl | hv
        · exact absurd hold hn
        · exact ⟨v,hv,hold⟩
      have he : ¬Holds size w e := by
        have hn := dropWhile_get_zero_not (landsIn size w) ds (by simp [hdr])
        simp only [hdr,get_eq_getElem,getElem_cons_zero] at hn
        rwa [landsIn_iff h (hle e (hsu e (by simp))) (hh e (hsu e (by simp)))] at hn
      obtain ⟨v,hv,hold⟩ := hl e (hsu e (by simp)) he
      obtain ⟨hst,hsi⟩ := h.later hv hold
      refine forall_mem_cons.mpr ⟨⟨v,hv,hold⟩,fun d hd => hl d (hsu d (by simp [hd])) fun hw => ?_⟩
      -- the edits are sorted, so one behind `e` does not lie in the window either
      have ha := (pairwise_cons.mp (hs.sublist (hdr ▸ dropWhile_sublist _))).1 d hd
      have hle' := hle e (hsu e (by simp))
      have hsp := hw.le_stop
      have hd' := hle d (hsu d (by simp [hd]))
      have := hw.insert_lt (by omega)
      omega

end

def assign (size : ℕ) : List FileRange → List DirtyInput → List (FileRange × List DirtyInput)
  | [], _ => []
  | w :: ws, ds => (w,ds.takeWhile (landsIn size w)) :: assign size ws (ds.dropWhile (landsIn size w))

theorem assign_map_fst (size : ℕ) (ws : List FileRange) (ds : List DirtyInput) :
    (assign size ws ds).map (·.1) = ws := by
  induction ws generalizing ds with
  | nil => rfl
  | cons w ws ih => rw [assign,map_cons,ih]

structure Assignable (size : ℕ) (ws : List FileRange) (ds : List DirtyInput) : Prop where
  windows : WindowsOk size ws
  sorted : ds.Pairwise fun a b => a.stop ≤ b.start
  start_le : ∀ d ∈ ds, d.start ≤ d.stop
  held : ∀ d ∈ ds, ∃ w ∈ ws, Holds size w d

theorem Assignable.of_cons (h : Assignable size (w :: ws) ds) :
    Assignable size ws (ds.dropWhile (landsIn size w)) where
  windows := h.windows.of_cons
  sorted := h.sorted.sublist (dropWhile_sublist _)
  start_le d hd := h.start_le d ((dropWhile_suffix _).subset hd)
  held := (takeWhile_landsIn h.windows h.sorted h.start_le h.held).2

theorem Assignable.eq_nil (h : Assignable size [] ds) : ds = [] := by
  refine eq_nil_iff_forall_not_mem.mpr fun d hd => ?_
  obtain ⟨w,hw,-⟩ := h.held d hd
  simp at hw

theorem Assignable.flatMap_assign (h : Assignable size ws ds) :
    (assign size ws ds).flatMap (·.2) = ds := by
  induction ws generalizing ds with
  | nil => rw [h.eq_nil]; rfl
  | cons w ws ih => rw [assign,flatMap_cons,ih h.of_cons,takeWhile_append_dropWhile]

theorem Assignable.holds (h : Assignable size ws ds) :
    ∀ p ∈ assign size ws ds, ∀ d ∈ p.2, Holds size p.1 d := by
  induction ws generalizing ds with
  | nil => simp [assign]
  | cons w ws ih =>
    exact forall_mem_cons.mpr
      ⟨(takeWhile_landsIn h.windows h.sorted h.start_le h.held).1,ih h.of_cons⟩

def group (p : FileRange × List DirtyInput) : PatchGroup UInt8 :=
  ⟨p.1.start,p.1.stop,p.2.map DirtyInput.patch⟩

theorem Assignable.fits (h : Assignable size ws ds) : ∀ p ∈ assign size ws ds,
    Fits p.1.stop p.1.start (p.2.map DirtyInput.patch) := by
  intro p hp
  have hh := h.holds p hp
  have hs : p.2.Sublist ds := by
    rw [← h.flatMap_assign]
    exact sublist_flatten_of_mem (mem_map_of_mem hp)
  have hw : p.1 ∈ ws := assign_map_fst size ws ds ▸ mem_map_of_mem hp
  exact fits_patches (h.sorted.sublist hs) (fun d hd => h.start_le d (hs.subset hd))
    (fun d hd => (hh d hd).start_le) (fun d hd => (hh d hd).le_stop) (h.windows.lt _ hw).le

theorem Assignable.outer_fits (h : Assignable size ws ds) (file : Bytes) :
    Fits size 0 ((assign size ws ds).map fun p => (group p).outer file) := by
  have hw := h.windows
  rw [← assign_map_fst size ws ds] at hw
  exact Fits.of_sorted (pairwise_map.mpr (pairwise_map.mp hw.sorted))
    (forall_mem_map.mpr fun p hp => (hw.lt _ (mem_map_of_mem hp)).le) (fun _ _ => Nat.zero_le _)
    (forall_mem_map.mpr fun p hp => hw.stop_le _ (mem_map_of_mem hp)) (Nat.zero_le _)

/-- The edited file is the original one with every window replaced by its edited bytes. -/
theorem edited_eq (h : Assignable file.length ws ds) :
    edited file ds = patch file file.length 0 ((assign file.length ws ds).map fun p =>
      (group p).outer file) := by
  have hin : ∀ g ∈ (assign file.length ws ds).map group, Fits g.stop g.start g.inner :=
    forall_mem_map.mpr h.fits
  have ho : Fits file.length 0 (((assign file.length ws ds).map group).map (PatchGroup.outer file)) := by
    rw [map_map]
    exact h.outer_fits file
  have hg := patch_groups hin ho
  have hir : ((assign file.length ws ds).map group).flatMap PatchGroup.inner =
    ds.map DirtyInput.patch := by
    rw [flatMap_map,← congrArg (List.map DirtyInput.patch) h.flatMap_assign,map_flatMap]
    rfl
  rwa [hir,map_map] at hg

/-- The window with the chunks and the info of its edited bytes. -/
def uploadedWindow (client : UploadClient H) (file : Bytes) (i : ℕ) (p : FileRange × List DirtyInput) :
    UploadedWindow H :=
  let r := client.clean i (middleSize p.1 p.2) ((group p).outer file).content
  ⟨p.1.start,p.1.stop,r.1,r.2⟩

def uploadedFrom (client : UploadClient H) (file : Bytes) :
    ℕ → List (FileRange × List DirtyInput) → List (UploadedWindow H)
  | _, [] => []
  | i, p :: ps => uploadedWindow client file i p :: uploadedFrom client file (i + 1) ps

theorem uploadedFrom_map {β : Type*} {φ : UploadedWindow H → β}
    {ψ : FileRange × List DirtyInput → β} (h : ∀ i p, φ (uploadedWindow client file i p) = ψ p) (i : ℕ)
    (ps : List (FileRange × List DirtyInput)) : (uploadedFrom client file i ps).map φ = ps.map ψ := by
  induction ps generalizing i with
  | nil => rfl
  | cons p ps ih => rw [uploadedFrom,map_cons,h,ih,map_cons]

theorem mem_uploadedFrom {i : ℕ}
    {ps : List (FileRange × List DirtyInput)} {u : UploadedWindow H}
    (hu : u ∈ uploadedFrom client file i ps) :
    ∃ j, ∃ p ∈ ps, u = uploadedWindow client file j p := by
  induction ps generalizing i with
  | nil => simp [uploadedFrom] at hu
  | cons p ps ih =>
    rcases mem_cons.mp hu with rfl | hu
    · exact ⟨i,p,by simp,rfl⟩
    · obtain ⟨j,q,hq,rfl⟩ := ih hu
      exact ⟨j,q,by simp [hq],rfl⟩

theorem uploadWindows_eq {originalHash : H}
    (hra : ∀ r : FileRange, r.stop ≤ file.length →
      client.readRange originalHash r = slice file r.start r.stop)
    (hr : Readable ds) (h : Assignable file.length ws ds) (i : ℕ) :
    uploadWindows client originalHash file.length i ws ds =
      .ok (uploadedFrom client file i (assign file.length ws ds),[]) := by
  induction ws generalizing ds i with
  | nil => rw [uploadWindows,h.eq_nil]; rfl
  | cons w ws ih =>
    have hs : ∀ d ∈ ds.takeWhile (landsIn file.length w), d ∈ ds :=
      fun d hd => (takeWhile_sublist _).subset hd
    have hda := windowData_eq hra (h.windows.stop_le w (by simp)) (fun d hd => hr d (hs d hd))
      (h.fits _ mem_cons_self)
    have hdr : ds.drop (ds.takeWhile (landsIn file.length w)).length =
      ds.dropWhile (landsIn file.length w) :=
      (congrArg (List.drop _) takeWhile_append_dropWhile.symm).trans (drop_left ..)
    have hre := ih (fun d hd => hr d ((dropWhile_suffix _).subset hd)) h.of_cons (i + 1)
    simp only [uploadWindows,hdr,hre]
    rw [hda]
    rfl

end Assign
end XetCore.RangeUpload
