import XetCore.Dedup.Dependencies
import XetCore.Session.CompletionTracker

/-! # The accounts of the completion tracker

For each file, the bytes that wait for a xorb are those of its dependencies on it. Whatever
the order of the reports, when all xorbs that a file needs are completed, its completed
bytes are those of its dependencies.
-/
namespace XetCore.Session
open Dedup CompletionTracker List

variable {H : Type}

section Accounts
variable [DecidableEq H]

/-- The bytes of the dependencies of a file that satisfy a test. -/
def fileDepBytes (fileId : ℕ) (test : FileXorbDependency H → Bool)
    (deps : List (FileXorbDependency H)) : ℕ :=
  depBytes (deps.filter fun d => d.fileId = fileId && test d)

def waitsFor (x : H) (d : FileXorbDependency H) : Bool := !d.isExternal && d.xorbHash = x

def isDone (xorbs : H → XorbDependency) (d : FileXorbDependency H) : Bool :=
  d.isExternal || (xorbs d.xorbHash).isCompleted

structure FileTracked (X : Finset H) (xorbs : H → XorbDependency)
    (deps : List (FileXorbDependency H)) (i : ℕ) (f : FileDependency H) : Prop where
  part : ∀ x, (f.part x).nBytes = if (xorbs x).isCompleted then 0 else fileDepBytes i (waitsFor x) deps
  le : ∀ x, (f.part x).completedBytes ≤ (f.part x).nBytes
  index : ∀ x, f.remainingXorbsParts x ≠ none →
    i ∈ (xorbs x).fileIndices ∧ (xorbs x).isCompleted = false ∧ ∃ d ∈ deps, waitsFor x d = true
  completed : f.completedBytes = fileDepBytes i (isDone xorbs) deps + ∑ x ∈ X, (f.part x).completedBytes

variable {X : Finset H} {xorbs xorbs' : H → XorbDependency} {deps : List (FileXorbDependency H)} {i : ℕ}
  {f : FileDependency H} {dep : FileXorbDependency H} {change : FileDependency H →
    FileDependency H} {share : Share}
variable {files : List (FileDependency H)} {events : List (TrackerEvent H)}

omit [DecidableEq H] in
theorem fileDepBytes_concat (test : FileXorbDependency H → Bool) : fileDepBytes i test (deps ++ [dep]) =
    fileDepBytes i test deps + if dep.fileId = i ∧ test dep = true then dep.nBytes else 0 := by
  rw [fileDepBytes,List.filter_append,depBytes_append,fileDepBytes]
  by_cases h : dep.fileId = i ∧ test dep = true <;> simp [h,depBytes]

omit [DecidableEq H] in
theorem fileDepBytes_eq_zero {test : FileXorbDependency H → Bool}
    (h : ∀ d ∈ deps, d.fileId = i → test d = false) : fileDepBytes i test deps = 0 := by
  have hn : deps.filter (fun d => d.fileId = i && test d) = [] := by
    refine List.filter_eq_nil_iff.mpr fun d hd => ?_
    simp only [Bool.and_eq_true,decide_eq_true_eq,not_and,Bool.not_eq_true]
    exact h d hd
  rw [fileDepBytes,hn]
  rfl

theorem sum_update (p : H → XorbPartCompletionStats) (x : H) (v : XorbPartCompletionStats)
    (hx : x ∈ X ∨ ((p x).completedBytes = 0 ∧ v.completedBytes = 0)) :
    ∑ y ∈ X, (Function.update p x v y).completedBytes + (p x).completedBytes =
      ∑ y ∈ X, (p y).completedBytes + v.completedBytes := by
  by_cases hmem : x ∈ X
  · have hr : ∑ y ∈ X.erase x, (Function.update p x v y).completedBytes = ∑ y ∈ X.erase x,
      (p y).completedBytes :=
      Finset.sum_congr rfl fun y hy => by rw [Function.update_of_ne (Finset.ne_of_mem_erase hy)]
    rw [← Finset.add_sum_erase X _ hmem,← Finset.add_sum_erase X (fun y => (p y).completedBytes) hmem,hr,
      Function.update_self]
    omega
  · have hr : ∑ y ∈ X, (Function.update p x v y).completedBytes = ∑ y ∈ X, (p y).completedBytes :=
      Finset.sum_congr rfl fun y hy => by rw [Function.update_of_ne (ne_of_mem_of_not_mem hy hmem)]
    obtain ⟨hp,hv⟩ := hx.resolve_left hmem
    rw [hr,hp,hv]

theorem part_update (f : FileDependency H) (x : H) (p : Option XorbPartCompletionStats) (n : ℕ) :
    FileDependency.part { f with
      remainingXorbsParts := Function.update f.remainingXorbsParts x p
      completedBytes := n } = Function.update f.part x (p.getD {}) := by
  funext y
  by_cases hy : y = x
  · subst hy
    simp [FileDependency.part]
  · simp [FileDependency.part,hy]

namespace FileTracked
variable {x : H} {p : XorbPartCompletionStats} {c size : ℕ}

section
variable (h : FileTracked X xorbs deps i f)
include h

theorem nBytes_eq_zero (hX : ∀ d ∈ deps, d.xorbHash ∈ X) (hx : x ∉ X) : (f.part x).nBytes = 0 := by
  rw [h.part]
  split
  · rfl
  · refine fileDepBytes_eq_zero fun d hd _ => ?_
    have hne : d.xorbHash ≠ x := ne_of_mem_of_not_mem (hX d hd) hx
    simp [waitsFor,hne]

theorem index_concat (dep : FileXorbDependency H) (x : H) (hx : f.remainingXorbsParts x ≠ none) :
    i ∈ (xorbs x).fileIndices ∧ (xorbs x).isCompleted = false ∧
    ∃ d ∈ deps ++ [dep], waitsFor x d = true := by
  obtain ⟨hmem,ho,d,hd,hw⟩ := h.index x hx
  exact ⟨hmem,ho,d,mem_append_left _ hd,hw⟩

theorem congr (hc : ∀ x, (xorbs' x).isCompleted = (xorbs x).isCompleted)
    (hi : ∀ x, (xorbs x).fileIndices ⊆ (xorbs' x).fileIndices) : FileTracked X xorbs' deps i f := by
  refine ⟨fun x => by rw [hc]; exact h.part x,h.le,fun x hx => ?_,?_⟩
  · obtain ⟨hmem,ho,hde⟩ := h.index x hx
    exact ⟨hi x hmem,(hc x).trans ho,hde⟩
  have hd : isDone xorbs' = isDone xorbs := by
    funext d
    simp [isDone,hc]
  rw [hd]
  exact h.completed

theorem done (hd : isDone xorbs dep = true) : FileTracked X xorbs (deps ++ [dep]) i
      (if dep.fileId = i then { f with completedBytes := f.completedBytes + dep.nBytes } else f) := by
  have hpa : ∀ x, (xorbs x).isCompleted = false →
      fileDepBytes i (waitsFor x) (deps ++ [dep]) = fileDepBytes i (waitsFor x) deps := by
    intro x hx
    have hno : waitsFor x dep = false := by
      simp only [isDone,Bool.or_eq_true] at hd
      rcases hd with hd | hd
      · simp [waitsFor,hd]
      · have hne : dep.xorbHash ≠ x := by
          rintro rfl
          simp [hx] at hd
        simp [waitsFor,hne]
    rw [fileDepBytes_concat,if_neg (by simp [hno]),Nat.add_zero]
  have hs : fileDepBytes i (isDone xorbs) (deps ++ [dep]) = fileDepBytes i (isDone xorbs) deps +
      if dep.fileId = i ∧ isDone xorbs dep = true then dep.nBytes else 0 := fileDepBytes_concat _
  have hco := h.completed
  have hn : ∀ x, (f.part x).nBytes =
      if (xorbs x).isCompleted then 0 else fileDepBytes i (waitsFor x) (deps ++ [dep]) := by
    intro x
    rw [h.part x]
    cases hx : (xorbs x).isCompleted with
    | true => rfl
    | false => simp [hpa x hx]
  split_ifs with hi
  · rw [if_pos ⟨hi,hd⟩] at hs
    have hp : FileDependency.part { f with completedBytes := f.completedBytes + dep.nBytes } =
      f.part := rfl
    exact ⟨hn,h.le,h.index_concat dep,by rw [hs,hp]; simp only; omega⟩
  · rw [if_neg (fun hc => hi hc.1)] at hs
    exact ⟨hn,h.le,h.index_concat dep,by omega⟩

theorem waits (hd : isDone xorbs dep = false) :
    FileTracked X (Function.update xorbs dep.xorbHash { xorbs dep.xorbHash with
        fileIndices := insert dep.fileId (xorbs dep.xorbHash).fileIndices }) (deps ++ [dep]) i
      (if dep.fileId = i then { f with
        remainingXorbsParts := Function.update f.remainingXorbsParts dep.xorbHash
          (some { f.part dep.xorbHash with nBytes := (f.part dep.xorbHash).nBytes + dep.nBytes }) }
            else f) := by
  set xorbs' := Function.update xorbs dep.xorbHash { xorbs dep.xorbHash with
    fileIndices := insert dep.fileId (xorbs dep.xorbHash).fileIndices } with hxo'
  have hc : ∀ x, (xorbs' x).isCompleted = (xorbs x).isCompleted := by
    intro x
    by_cases hx : x = dep.xorbHash
    · subst hx
      simp [hxo']
    · simp [hxo',hx]
  have hi : ∀ x, (xorbs x).fileIndices ⊆ (xorbs' x).fileIndices := by
    intro x
    by_cases hx : x = dep.xorbHash
    · subst hx
      simp [hxo']
    · simp [hxo',hx]
  have hold := h.congr hc hi
  have hdo : isDone xorbs' dep = false := by
    simpa [isDone,hc] using hd
  obtain ⟨he,ho⟩ : dep.isExternal = false ∧ (xorbs' dep.xorbHash).isCompleted = false := by
    simpa [isDone] using hdo
  have hs : fileDepBytes i (isDone xorbs') (deps ++ [dep]) = fileDepBytes i (isDone xorbs') deps := by
    rw [fileDepBytes_concat,if_neg (by simp [hdo]),Nat.add_zero]
  have hw : ∀ x, fileDepBytes i (waitsFor x) (deps ++ [dep]) = fileDepBytes i (waitsFor x) deps +
      if dep.fileId = i ∧ dep.xorbHash = x then dep.nBytes else 0 := by
    intro x
    rw [fileDepBytes_concat]
    simp [waitsFor,he]
  split_ifs with hid
  · refine ⟨fun x => ?_,fun x => ?_,fun x hx => ?_,?_⟩
    · rw [hw,part_update,Option.getD_some]
      by_cases hx : x = dep.xorbHash
      · subst hx
        have := hold.part dep.xorbHash
        simp [ho,hid,this]
      · simp only [Function.update_of_ne hx]
        rw [hold.part x,if_neg (c := dep.fileId = i ∧ dep.xorbHash = x) (fun hc => hx hc.2.symm),
          Nat.add_zero]
    · rw [part_update,Option.getD_some]
      by_cases hx : x = dep.xorbHash
      · subst hx
        have := hold.le dep.xorbHash
        simp only [Function.update_self]
        omega
      · simpa only [Function.update_of_ne hx] using hold.le x
    · by_cases hxd : x = dep.xorbHash
      · subst hxd
        exact ⟨by simp [hxo',hid],ho,dep,by simp,by simp [waitsFor,he]⟩
      · simp only [Function.update_of_ne hxd] at hx
        exact hold.index_concat dep x hx
    · have hp : ∀ x, (Function.update f.part dep.xorbHash { f.part dep.xorbHash with
          nBytes := (f.part dep.xorbHash).nBytes + dep.nBytes } x).completedBytes =
            (f.part x).completedBytes := by
        intro x
        by_cases hx : x = dep.xorbHash
        · subst hx
          simp
        · simp [hx]
      simp only [part_update,Option.getD_some,hp,hs]
      exact hold.completed
  · refine ⟨fun x => ?_,hold.le,hold.index_concat dep,by rw [hs]; exact hold.completed⟩
    rw [hw,if_neg (c := dep.fileId = i ∧ dep.xorbHash = x) (fun hc => hid hc.1),Nat.add_zero]
    exact hold.part x

end

theorem isDone_completed (ho : (xorbs x).isCompleted = false) (e : XorbDependency)
    (he : e.isCompleted = true)
    (i : ℕ) (deps : List (FileXorbDependency H)) :
    fileDepBytes i (isDone (Function.update xorbs x e)) deps =
      fileDepBytes i (isDone xorbs) deps + fileDepBytes i (waitsFor x) deps := by
  induction deps using List.reverseRecOn with
  | nil => rfl
  | append_singleton deps d ih =>
    rw [fileDepBytes_concat,fileDepBytes_concat,fileDepBytes_concat,ih]
    by_cases hx : d.xorbHash = x
    · subst hx
      cases hex : d.isExternal <;> simp [isDone,waitsFor,hex,ho,he] <;> omega
    · have hd : isDone (Function.update xorbs x e) d = isDone xorbs d := by simp [isDone,hx]
      have hw : waitsFor x d = false := by simp [waitsFor,hx]
      simp only [hd,hw,Bool.false_eq_true,and_false,↓reduceIte]
      omega

theorem complete (h : FileTracked X xorbs deps i f) (hX : ∀ d ∈ deps, d.xorbHash ∈ X)
    (ho : (xorbs x).isCompleted = false) :
    FileTracked X (Function.update xorbs x { xorbs x with isCompleted := true, fileIndices := ∅ }) deps i
      (if i ∈ (xorbs x).fileIndices then completePart x f else f) := by
  have hle := h.le x
  have hp := h.part x
  rw [ho,if_neg (by simp)] at hp
  -- a file that is not in the index has no part of the xorb
  have hs : (if i ∈ (xorbs x).fileIndices then completePart x f else f) = completePart x f := by
    split_ifs with hi
    · rfl
    · have hno : f.remainingXorbsParts x = none := by
        by_contra hn
        exact hi (h.index x hn).1
      unfold completePart remainingBytes FileDependency.part
      rw [← hno,Function.update_eq_self,hno]
      rfl
  rw [hs]
  have hsu := sum_update f.part x {} (by
    by_cases hx : x ∈ X
    · exact Or.inl hx
    · have := h.nBytes_eq_zero hX hx
      exact Or.inr ⟨by omega,rfl⟩)
  have hc := h.completed
  have hne : (completePart x f).part = Function.update f.part x {} := part_update f x none _
  refine ⟨fun y => ?_,fun y => ?_,fun y hy => ?_,?_⟩
  · rw [hne]
    by_cases hy : y = x
    · subst hy
      simp
    · simpa [hy] using h.part y
  · rw [hne]
    by_cases hy : y = x
    · subst hy
      simp
    · simpa [hy] using h.le y
  · by_cases hyx : y = x
    · subst hyx
      simp [completePart] at hy
    · simp only [completePart,Function.update_of_ne hyx] at hy ⊢
      exact h.index y hy
  · rw [isDone_completed ho _ rfl,← hp,hne]
    simp only [completePart,remainingBytes]
    simp only at hsu
    omega

theorem advance (h : FileTracked X xorbs deps i f) (hX : ∀ d ∈ deps, d.xorbHash ∈ X)
    (hp : f.remainingXorbsParts x = some p) {k : ℕ} (hk : p.completedBytes + k ≤ p.nBytes) :
    FileTracked X xorbs deps i { f with
      remainingXorbsParts := Function.update f.remainingXorbsParts x
        (some { p with completedBytes := p.completedBytes + k })
      completedBytes := f.completedBytes + k } := by
  have hfp : f.part x = p := by rw [FileDependency.part,hp,Option.getD_some]
  have hs := sum_update f.part x { p with completedBytes := p.completedBytes + k } (by
    by_cases hx : x ∈ X
    · exact Or.inl hx
    · have hz := h.nBytes_eq_zero hX hx
      rw [hfp] at hz ⊢
      exact Or.inr ⟨by omega,by simp only; omega⟩)
  have hc := h.completed
  rw [hfp] at hs
  refine ⟨fun y => ?_,fun y => ?_,fun y hy => ?_,?_⟩
  · rw [part_update,Option.getD_some]
    by_cases hy : y = x
    · subst hy
      simpa [hfp] using h.part y
    · simpa [hy] using h.part y
  · rw [part_update,Option.getD_some]
    by_cases hy : y = x
    · subst hy
      simpa using hk
    · simpa [hy] using h.le y
  · by_cases hyx : y = x
    · subst hyx
      exact h.index y (by simp [hp])
    · simp only [Function.update_of_ne hyx] at hy
      exact h.index y hy
  · rw [part_update,Option.getD_some]
    simp only at hs ⊢
    omega

omit [DecidableEq H] in
theorem incrementalUpdate_of_some (hp : f.remainingXorbsParts x = some p) :
    incrementalUpdate share x c size f = share p.nBytes c size - p.completedBytes := by
  rw [incrementalUpdate,hp]

theorem advancePart_of_none (hp : f.remainingXorbsParts x = none) : advancePart share x c size f = f := by
  have hz : incrementalUpdate share x c size f = 0 := by
    rw [incrementalUpdate,hp]
  rw [advancePart,hz,hp,Option.map_none,← hp,Function.update_eq_self]
  rfl

theorem progress (h : FileTracked X xorbs deps i f) (hX : ∀ d ∈ deps, d.xorbHash ∈ X) (x : H)
    (hs : ∀ n, share n c size ≤ n) :
    FileTracked X (Function.update xorbs x { xorbs x with completedBytes := c }) deps i
      (if i ∈ (xorbs x).fileIndices then advancePart share x c size f else f) := by
  have hold : FileTracked X (Function.update xorbs x { xorbs x with completedBytes := c }) deps i f := by
    refine h.congr (fun y => ?_) (fun y => ?_)
    · by_cases hy : y = x
      · subst hy
        simp
      · simp [hy]
    · by_cases hy : y = x
      · subst hy
        simp
      · simp [hy]
  split
  · cases hp : f.remainingXorbsParts x with
    | none => rwa [advancePart_of_none hp]
    | some p =>
      have hle := h.le x
      have hn := hs p.nBytes
      rw [FileDependency.part,hp,Option.getD_some] at hle
      have hk : p.completedBytes + (share p.nBytes c size - p.completedBytes) ≤ p.nBytes := by omega
      unfold advancePart
      simp only [incrementalUpdate_of_some hp,hp]
      exact hold.advance hX hp hk
  · exact hold

end FileTracked

structure Tracked (X : Finset H) (t : CompletionTracker H) (deps : List (FileXorbDependency H)) :
    Prop where
  files : ∀ i f, t.files[i]? = some f → FileTracked X t.xorbs deps i f
  known : ∀ d ∈ deps, d.fileId < t.files.length

omit [DecidableEq H] in
theorem exists_of_modify {fileId : ℕ} (h : (files.modify fileId change)[i]? = some f) :
    ∃ g, files[i]? = some g ∧ f = if fileId = i then change g else g := by
  rw [List.getElem?_modify,Option.map_eq_map,Option.map_eq_some_iff] at h
  obtain ⟨g,hg,rfl⟩ := h
  exact ⟨g,hg,rfl⟩

omit [DecidableEq H] in
theorem exists_of_modifyFiles {indices : Finset ℕ} (h : (modifyFiles indices change files)[i]? = some f) :
    ∃ g, files[i]? = some g ∧ f = if i ∈ indices then change g else g := by
  rw [modifyFiles,List.getElem?_mapIdx,Option.map_eq_some_iff] at h
  obtain ⟨g,hg,rfl⟩ := h
  exact ⟨g,hg,rfl⟩

namespace Tracked
open CompletionTracker
variable {t : CompletionTracker H}
variable {share : Share}

section
variable (h : Tracked X t deps)
include h

theorem newFile (nBytes : Option ℕ) : Tracked X (t.registerNewFile nBytes).2 deps := by
  refine ⟨fun i f hf => ?_,fun d hd => ?_⟩
  · simp only [registerNewFile] at hf ⊢
    by_cases hi : i < t.files.length
    · rw [getElem?_append_left hi] at hf
      exact h.files i f hf
    · obtain rfl : i = t.files.length := by
        have := (List.getElem?_eq_some_iff.mp hf).1
        simp only [length_append,length_singleton] at this
        omega
      obtain rfl : _ = f := by simpa using hf
      -- no dependency is registered for a file before the file
      have hn : ∀ test, fileDepBytes t.files.length test deps = 0 := fun test =>
        fileDepBytes_eq_zero fun d hd hid => absurd hid (h.known d hd).ne
      exact ⟨fun x => by simp [hn,FileDependency.part],fun _ => le_rfl,fun x hx => by simp at hx,
        by simp [hn,FileDependency.part]⟩
  · have := h.known d hd
    simp only [registerNewFile,length_append]
    omega

theorem fileSize (fileId n : ℕ) : Tracked X (t.incrementFileSize fileId n) deps := by
  unfold incrementFileSize
  split
  · exact h
  · refine ⟨fun i f hf => ?_,fun d hd => by simpa using h.known d hd⟩
    obtain ⟨g,hg,rfl⟩ := exists_of_modify hf
    obtain ⟨hp,hle,hi,hc⟩ := h.files i g hg
    split <;> exact ⟨hp,hle,hi,hc⟩

theorem dependency (hlt : dep.fileId < t.files.length) :
    Tracked X (t.registerDependency dep) (deps ++ [dep]) ∧
    (t.registerDependency dep).files.length = t.files.length := by
  have hk : ∀ d ∈ deps ++ [dep], d.fileId < t.files.length :=
    forall_mem_append.mpr ⟨h.known,by simpa using hlt⟩
  have hc : isDone t.xorbs dep = true → Tracked X { t with
      files := t.files.modify dep.fileId fun f =>
        { f with completedBytes := f.completedBytes + dep.nBytes }
      totalBytesCompleted := t.totalBytesCompleted + dep.nBytes } (deps ++ [dep]) := by
    intro hd
    refine ⟨fun i f hf => ?_,by simpa using hk⟩
    obtain ⟨g,hg,rfl⟩ := exists_of_modify hf
    exact (h.files i g hg).done hd
  unfold registerDependency
  split
  · rename_i he
    exact ⟨hc (by simp [isDone,he]),by simp⟩
  · rename_i he
    split_ifs with hd
    · exact ⟨hc (by simp [isDone,hd]),by simp⟩
    · refine ⟨⟨fun i f hf => ?_,by simpa using hk⟩,by simp⟩
      obtain ⟨g,hg,rfl⟩ := exists_of_modify hf
      exact (h.files i g hg).waits (by simp [isDone,he,hd])

theorem dependencies {more : List (FileXorbDependency H)}
    (hlt : ∀ dep ∈ more, dep.fileId < t.files.length) :
    Tracked X (t.registerDependencies more) (deps ++ more) := by
  induction more generalizing t deps with
  | nil => simpa [registerDependencies] using h
  | cons dep more ih =>
    obtain ⟨hn,hlen⟩ := h.dependency (hlt dep mem_cons_self)
    have hr := ih hn fun d hd => by rw [hlen]; exact hlt d (mem_cons_of_mem _ hd)
    rwa [append_assoc] at hr

theorem newXorb (x : H) (size : ℕ) : Tracked X (t.registerNewXorb x size).2 deps := by
  unfold registerNewXorb
  simp only
  split
  · refine ⟨fun i f hf => (h.files i f hf).congr (fun y => ?_) (fun y => ?_),h.known⟩
    · by_cases hy : y = x
      · subst hy
        simp
      · simp [hy]
    · by_cases hy : y = x
      · subst hy
        simp
      · simp [hy]
  · exact h

theorem completion (hX : ∀ d ∈ deps, d.xorbHash ∈ X) (x : H) :
    Tracked X (t.registerXorbUploadCompletion x) deps := by
  unfold registerXorbUploadCompletion
  simp only
  split_ifs with ho
  · exact h
  · refine ⟨fun i f hf => ?_,by simpa [modifyFiles] using h.known⟩
    obtain ⟨g,hg,rfl⟩ := exists_of_modifyFiles hf
    exact (h.files i g hg).complete hX (by simpa using ho)

end

section
variable (hs : ∀ n c size, c ≤ size → share n c size ≤ n)
include hs

theorem progress (h : Tracked X t deps)
    (hX : ∀ d ∈ deps, d.xorbHash ∈ X) {x : H} {n : ℕ}
    (hn : (t.xorbs x).completedBytes + n ≤ (t.xorbs x).xorbSize)
    (checkOrdering : Bool) : Tracked X (t.registerXorbUploadProgress share x n checkOrdering) deps := by
  unfold registerXorbUploadProgress
  simp only
  split
  · exact h
  · refine ⟨fun i f hf => ?_,by simpa [modifyFiles] using h.known⟩
    obtain ⟨g,hg,rfl⟩ := exists_of_modifyFiles hf
    exact (h.files i g hg).progress hX x fun m => hs m _ _ hn

theorem apply (h : Tracked X t deps)
    {e : TrackerEvent H} (he : t.EventOk e) (hX : ∀ d ∈ deps ++ e.deps, d.xorbHash ∈ X) :
    Tracked X (CompletionTracker.apply share t e) (deps ++ e.deps) := by
  have hold := forall_mem_append.mp hX
  cases e with
  | dependencies more => exact h.dependencies he
  | newFile nBytes => simpa [TrackerEvent.deps,CompletionTracker.apply] using h.newFile nBytes
  | fileSize fileId n => simpa [TrackerEvent.deps,CompletionTracker.apply] using h.fileSize fileId n
  | newXorb x size => simpa [TrackerEvent.deps,CompletionTracker.apply] using h.newXorb x size
  | progress x n checkOrdering =>
    simpa [TrackerEvent.deps,CompletionTracker.apply] using h.progress hs hold.1 he checkOrdering
  | completion x => simpa [TrackerEvent.deps,CompletionTracker.apply] using h.completion hold.1 x

theorem applyAll (h : Tracked X t deps) (hok : EventsOk share t events)
    (hX : ∀ d ∈ deps ++ events.flatMap TrackerEvent.deps, d.xorbHash ∈ X) :
    Tracked X (applyAll share t events) (deps ++ events.flatMap TrackerEvent.deps) := by
  induction events generalizing t deps with
  | nil => simpa [applyAll] using h
  | cons e es ih =>
    rw [flatMap_cons,← append_assoc] at hX ⊢
    exact ih (h.apply hs hok.1 fun d hd => hX d (mem_append_left _ hd)) hok.2 hX

end

end Tracked

/-- When all xorbs that a file waits for are completed, its completed bytes are those of its
dependencies. -/
theorem completedBytes_eq (hs : ∀ n c size, c ≤ size → share n c size ≤ n)
    (hok : CompletionTracker.EventsOk share {} events)
    (hf : (applyAll share {} events).files[i]? = some f)
    (hdo : ∀ d ∈ events.flatMap TrackerEvent.deps, d.fileId = i →
      isDone (applyAll share {} events).xorbs d = true) :
    f.completedBytes = fileDepBytes i (fun _ => true) (events.flatMap TrackerEvent.deps) := by
  set deps := events.flatMap TrackerEvent.deps
  have hst : Tracked (deps.map (·.xorbHash)).toFinset ({} : CompletionTracker H) [] := ⟨by simp,by simp⟩
  have h := (hst.applyAll hs hok fun d hd => by simpa using ⟨d,hd,rfl⟩).files i f hf
  rw [nil_append] at h
  have ha : deps.filter (fun d => d.fileId = i && isDone (applyAll share {} events).xorbs d) =
      deps.filter fun d => d.fileId = i && true := by
    refine filter_congr fun d hd => ?_
    by_cases hid : d.fileId = i
    · rw [hdo d hd hid]
    · simp [hid]
  -- no part is left
  have hp : ∀ x, (f.part x).completedBytes = 0 := by
    intro x
    refine Nat.eq_zero_of_le_zero ((h.le x).trans_eq ?_)
    rw [h.part x]
    split_ifs with ho
    · rfl
    · refine fileDepBytes_eq_zero fun d hd hid => ?_
      have hd' := hdo d hd hid
      simp only [isDone,Bool.or_eq_true] at hd'
      rcases hd' with he | hc
      · simp [waitsFor,he]
      · have hne : d.xorbHash ≠ x := by
          rintro rfl
          exact ho hc
        simp [waitsFor,hne]
  rw [h.completed,fileDepBytes,ha,Finset.sum_eq_zero fun x _ => hp x,Nat.add_zero]
  rfl

end Accounts
end XetCore.Session
