import XetCore.Lib.SortedTable
import XetCore.Serialization.Primitives

/-! # Interpolation search in a lookup table

The lookup tables of a shard are searched on disk. The next place to look at is guessed
from the keys at the ends of the window in floating point; whatever the guess is, it is
moved into the window, so that the search finds all the values of its key.
-/
namespace XetCore.Shard
open ByteSources Serialization SortedTables List

abbrev readWindowSize : ℕ := 256
abbrev expectedMaxNumDuplicates : ℕ := 4
abbrev u64Max : ℕ := 2 ^ 64 - 1

/-- The guess from the distance of the key, the distance of the ends and the size of the window. -/
abbrev Interpolation := ℕ → ℕ → ℕ → ℕ

/-- The entries are counted from one, with a smallest key before them and a largest one behind. -/
structure SearchState (ν : Type) where
  lo : ℕ
  loKey : ℕ
  hi : ℕ
  hiKey : ℕ
  probeIndex : ℕ
  result : List ν

section Model
variable {ν : Type} (interpolate : Interpolation) (key : ℕ) (room : ℕ)

def writeResult (result : List ν) (value : ν) : List ν :=
  if result.length < room then result ++ [value] else result

def computeProbeLocation (lo loKey hi hiKey : ℕ) : ℕ :=
  min (max (lo + interpolate (key - loKey) (hiKey - loKey) (hi - lo)) (lo + 1)) (hi - 1)

namespace SearchState
variable (s : SearchState ν) (probeKey : ℕ)

def less : SearchState ν :=
  let candidate := computeProbeLocation interpolate key s.lo s.loKey s.probeIndex probeKey
  { s with
    hi := s.probeIndex
    hiKey := probeKey
    probeIndex :=
      if s.probeIndex < candidate + readWindowSize
      then s.probeIndex - min readWindowSize (s.probeIndex - (s.lo + 1))
      else candidate }

def equal (result : List ν) : SearchState ν :=
  { s with
    hi := s.probeIndex
    hiKey := probeKey
    probeIndex := s.probeIndex - min expectedMaxNumDuplicates (s.probeIndex - (s.lo + 1))
    result := result }

def greater : SearchState ν :=
  let candidate := computeProbeLocation interpolate key s.probeIndex probeKey s.hi s.hiKey
  { s with
    lo := s.probeIndex
    loKey := probeKey
    probeIndex :=
      if candidate - s.probeIndex ≤ readWindowSize then min (s.probeIndex + readWindowSize)
        (s.hi - 1) else candidate }

end SearchState

variable (readValue : Reader Bytes CoreError ν)

/-- The values of the next entries, up to the first one with another key. -/
def readDuplicates : ℕ → List ν → Reader Bytes CoreError (List ν)
  | 0, result => return result
  | n + 1, result => do
    let probeKey ← readU64
    if probeKey ≠ key then return result
    else do
      let value ← readValue
      readDuplicates n (writeResult room result value)

def scanWindow : ℕ → List ν → Reader Bytes CoreError (List ν)
  | 0, result => return result
  | n + 1, result => do
    let probeKey ← readU64
    let probeValue ← readValue
    if key < probeKey then return result
    else if key = probeKey then scanWindow n (writeResult room result probeValue)
    else scanWindow n result

/-- A place with the key is read together with the places behind it. -/
def readEqual (n : ℕ) (result : List ν) : Reader Bytes CoreError (List ν) := do
  let value ← readValue
  readDuplicates key room readValue n (writeResult room result value)

variable (bytes : Bytes) (readStart pairSize : ℕ)

def probeStep (s : SearchState ν) : Result (SearchState ν) := do
  let r ← readU64.run (bytes.drop (readStart + (s.probeIndex - 1) * pairSize))
  if key < r.1 then return s.less interpolate key r.1
  else if key = r.1 then do
    let d ← (readEqual key room readValue (s.hi - (s.probeIndex + 1)) s.result).run r.2
    return s.equal r.1 d.1
  else return s.greater interpolate key r.1

/-- The window shrinks in every step; `fuel` bounds its size. -/
def probeLoop : ℕ → SearchState ν → Result (SearchState ν)
  | 0, s => return s
  | fuel + 1, s =>
    if s.lo + readWindowSize < s.hi then do
      let s' ← probeStep interpolate key room readValue bytes readStart pairSize s
      probeLoop fuel s'
    else return s

/-- The values that were found, as many as there is room for. -/
def searchOnSortedU64s (numEntries : ℕ) : Result (List ν) :=
  if room = 0 then return []
  else do
    let s ← probeLoop interpolate key room readValue bytes readStart pairSize (numEntries + 1) {
      lo := 0
      loKey := 0
      hi := numEntries + 1
      hiKey := u64Max
      probeIndex := computeProbeLocation interpolate key 0 0 (numEntries + 1) u64Max
      result := [] }
    let r ← (scanWindow key room readValue (s.hi - 1 - s.lo) s.result).run
      (bytes.drop (readStart + s.lo * pairSize))
    return r.1

end Model

section Spec
variable {ν : Type} {interpolate : Interpolation} {key room readStart pairSize : ℕ} {bytes : Bytes}
  {readValue : Reader Bytes CoreError ν} {enc : ν → Bytes} {table : List (ℕ × ν)}

def pairBytes (enc : ν → Bytes) (e : ℕ × ν) : Bytes := writeU64 e.1 ++ enc e.2

structure TableAt (bytes : Bytes) (readStart pairSize : ℕ) (readValue : Reader Bytes CoreError ν)
    (enc : ν → Bytes) (table : List (ℕ × ν)) : Prop where
  stored : ∃ rest, bytes.drop readStart = table.flatMap (pairBytes enc) ++ rest
  key_lt : ∀ e ∈ table, e.1 < 2 ^ 64
  reads : ∀ e ∈ table, Reads readValue (enc e.2) e.2
  size : ∀ v, (enc v).length + 8 = pairSize

theorem writeResult_take (found : List ν) (v : ν) :
    writeResult room (found.take room) v = (found ++ [v]).take room := by
  rw [writeResult,length_take]
  split
  next h => rw [take_of_length_le (by omega),take_of_length_le (by simp; omega)]
  next h => rw [take_append_of_le_length (by omega)]

namespace TableAt

theorem drop_eq (h : TableAt bytes readStart pairSize readValue enc table) :
    ∃ rest, ∀ i, bytes.drop (readStart + min i table.length * pairSize) =
      (table.drop i).flatMap (pairBytes enc) ++ rest := by
  obtain ⟨rest,hr⟩ := h.stored
  have hlen (t : List (ℕ × ν)) : (t.flatMap (pairBytes enc)).length = t.length * pairSize :=
    length_flatMap_eq (fun e => by
      rw [pairBytes,length_append,length_writeU64,← h.size e.2,Nat.add_comm]) t
  refine ⟨rest,fun i => ?_⟩
  have hsp : table.flatMap (pairBytes enc) =
      (table.take i).flatMap (pairBytes enc) ++ (table.drop i).flatMap (pairBytes enc) := by
    rw [← flatMap_append,take_append_drop]
  rw [← drop_drop,hr,hsp,append_assoc,drop_left' (by rw [hlen,length_take])]

theorem readKey {e : ℕ × ν} (h : e.1 < 2 ^ 64) (rest : Bytes) :
    (readU64 : Reader Bytes CoreError ℕ).run (pairBytes enc e ++ rest) = .ok (e.1,enc e.2 ++ rest) := by
  exact reads_u64 h _

end TableAt

variable {u : List (ℕ × ν)}

theorem readDuplicates_run (key room : ℕ) (hke : ∀ e ∈ u, e.1 < 2 ^ 64)
    (hv : ∀ e ∈ u, Reads readValue (enc e.2) e.2) {n : ℕ}
    (hn : n ≤ u.length) (found : List ν) (rest : Bytes) :
    ∃ t, (readDuplicates key room readValue n (found.take room)).run (u.flatMap (pairBytes enc) ++ rest) =
      .ok ((found ++ run key (u.take n)).take room,t) := by
  induction n generalizing u found with
  | zero =>
    have hni : run key ([] : List (ℕ × ν)) = [] := rfl
    exact ⟨_,by rw [take_zero,hni,append_nil]; rfl⟩
  | succ n ih =>
    cases u with
    | nil => simp at hn
    | cons e u =>
      obtain ⟨hek,huk⟩ := forall_mem_cons.mp hke
      obtain ⟨hev,huv⟩ := forall_mem_cons.mp hv
      rw [flatMap_cons,append_assoc,readDuplicates,run_bind_of_ok (TableAt.readKey hek _),take_succ_cons]
      by_cases hk : e.1 = key
      · rw [if_neg (by simpa using hk),run_bind_of_ok (hev _),writeResult_take,run_cons_self hk]
        obtain ⟨t,ht⟩ := ih huk huv (Nat.le_of_succ_le_succ hn) (found ++ [e.2])
        exact ⟨t,by rw [ht,append_assoc,singleton_append]⟩
      · rw [if_pos hk,run_cons_ne hk,append_nil]
        exact ⟨_,rfl⟩

theorem scanWindow_run (key room : ℕ) (hs : SortedKeys u) (hk : ∀ e ∈ u, e.1 < 2 ^ 64)
    (hv : ∀ e ∈ u, Reads readValue (enc e.2) e.2) {n : ℕ} (hn : n ≤ u.length) (found : List ν)
    (rest : Bytes) :
    ∃ t, (scanWindow key room readValue n (found.take room)).run (u.flatMap (pairBytes enc) ++ rest) =
      .ok ((found ++ hits key (u.take n)).take room,t) := by
  induction n generalizing u found with
  | zero => exact ⟨_,by rw [take_zero,hits_nil,append_nil]; rfl⟩
  | succ n ih =>
    cases u with
    | nil => simp at hn
    | cons e u =>
      obtain ⟨hek,huk⟩ := forall_mem_cons.mp hk
      obtain ⟨hev,huv⟩ := forall_mem_cons.mp hv
      obtain ⟨hle,hsu⟩ := pairwise_cons.mp hs
      rw [flatMap_cons,append_assoc,scanWindow,run_bind_of_ok (TableAt.readKey hek _),
        run_bind_of_ok (hev _),take_succ_cons]
      rcases lt_trichotomy key e.1 with hlt | heq | hgt
      · have hni : hits key (e :: u.take n) = [] := by
          refine hits_eq_nil fun e' he' => ?_
          rcases mem_cons.mp he' with rfl | he'
          · exact hlt.ne'
          · exact (hlt.trans_le (hle e' (mem_of_mem_take he'))).ne'
        rw [if_pos hlt,hni,append_nil]
        exact ⟨_,rfl⟩
      · rw [if_neg (by omega),if_pos heq,writeResult_take,hits_cons_self heq.symm]
        obtain ⟨t,ht⟩ := ih hsu huk huv (Nat.le_of_succ_le_succ hn) (found ++ [e.2])
        exact ⟨t,by rw [ht,append_assoc,singleton_append]⟩
      · rw [if_neg (by omega),if_neg (by omega),hits_cons_ne hgt.ne]
        exact ih hsu huk huv (Nat.le_of_succ_le_succ hn) found

/-- The next place to look at lies in the window as long as it is large. -/
structure Probing (key room : ℕ) (table : List (ℕ × ν)) (s : SearchState ν) (found : List ν) : Prop where
  searched : Searched key table s.lo s.hi found
  result_eq : s.result = found.take room
  probe : s.lo + readWindowSize < s.hi → s.lo < s.probeIndex ∧ s.probeIndex < s.hi

theorem computeProbeLocation_bounds (interpolate : Interpolation) (key loKey hiKey : ℕ) {lo hi : ℕ}
    (h : lo + 1 < hi) :
    lo < computeProbeLocation interpolate key lo loKey hi hiKey ∧
      computeProbeLocation interpolate key lo loKey hi hiKey < hi := by
  unfold computeProbeLocation
  omega

namespace Probing
variable {s : SearchState ν} {found : List ν} {e : ℕ × ν}

theorem start (interpolate : Interpolation) (key room : ℕ) (table : List (ℕ × ν)) :
    Probing key room table {
    lo := 0
    loKey := 0
    hi := table.length + 1
    hiKey := u64Max
    probeIndex := computeProbeLocation interpolate key 0 0 (table.length + 1) u64Max
    result := [] } [] := by
  refine ⟨⟨Nat.succ_pos _,le_rfl,rfl,by rw [Nat.add_sub_cancel,drop_length,hits_nil]⟩,take_nil.symm,
    fun hlarge => ?_⟩
  dsimp only [readWindowSize] at hlarge
  exact computeProbeLocation_bounds interpolate key 0 u64Max (show 0 + 1 < table.length + 1 by omega)

section
variable (h : Probing key room table s found) (hs : SortedKeys table)
  (hlarge : s.lo + readWindowSize < s.hi)
  (he : table[s.probeIndex - 1]? = some e)
include h hs hlarge he

theorem less (hk : key < e.1) : Probing key room table (s.less interpolate key e.1) found := by
  obtain ⟨hlo,hhi⟩ := h.probe hlarge
  refine ⟨h.searched.less hs hlo hhi he hk,h.result_eq,fun hlarge' => ?_⟩
  dsimp only [SearchState.less,readWindowSize] at hlarge' ⊢
  have hb := computeProbeLocation_bounds interpolate key s.loKey e.1
    (show s.lo + 1 < s.probeIndex by omega)
  split <;> omega

theorem equal (hk : e.1 = key) {result : List ν}
    (hr : result = (found ++ run key
      ((table.drop (s.probeIndex - 1)).take (s.hi - s.probeIndex))).take room) :
    Probing key room table (s.equal e.1 result)
      (found ++ run key ((table.drop (s.probeIndex - 1)).take (s.hi - s.probeIndex))) := by
  obtain ⟨hlo,hhi⟩ := h.probe hlarge
  refine ⟨h.searched.equal hs hlo hhi he hk,hr,fun hlarge' => ?_⟩
  dsimp only [SearchState.equal,expectedMaxNumDuplicates,readWindowSize] at hlarge' ⊢
  omega

theorem greater (hk : e.1 < key) : Probing key room table (s.greater interpolate key e.1) found := by
  obtain ⟨hlo,hhi⟩ := h.probe hlarge
  refine ⟨h.searched.greater hs hlo hhi he hk,h.result_eq,fun hlarge' => ?_⟩
  dsimp only [SearchState.greater,readWindowSize] at hlarge' ⊢
  have hb := computeProbeLocation_bounds interpolate key e.1 s.hiKey
    (show s.probeIndex + 1 < s.hi by omega)
  split <;> omega

end

theorem step (interpolate : Interpolation) (h : Probing key room table s found) (hs : SortedKeys table)
    (ht : TableAt bytes readStart pairSize readValue enc table) (hlarge : s.lo + readWindowSize < s.hi) :
    ∃ s' found', probeStep interpolate key room readValue bytes readStart pairSize s = .ok s' ∧
      Probing key room table s' found' ∧ s'.hi - s'.lo < s.hi - s.lo := by
  obtain ⟨hlo,hhi⟩ := h.probe hlarge
  have hle := h.searched.hi_le
  have hlt : s.probeIndex - 1 < table.length := by omega
  have he := getElem?_eq_getElem hlt
  have hc : table.drop (s.probeIndex - 1) = table[s.probeIndex - 1] :: table.drop s.probeIndex := by
    rw [drop_eq_getElem_cons hlt,Nat.sub_add_cancel (by omega)]
  obtain ⟨rest,hre⟩ := ht.drop_eq
  have hdr := hre (s.probeIndex - 1)
  rw [Nat.min_eq_left hlt.le,hc,flatMap_cons,append_assoc] at hdr
  have hmem := getElem_mem hlt
  have hr : readU64.run (bytes.drop (readStart + (s.probeIndex - 1) * pairSize)) =
      .ok (table[s.probeIndex - 1].1,enc table[s.probeIndex - 1].2 ++
        ((table.drop s.probeIndex).flatMap (pairBytes enc) ++ rest)) := by
    rw [hdr]
    exact TableAt.readKey (ht.key_lt _ hmem) _
  generalize table[s.probeIndex - 1] = e at he hmem hr hc
  rcases lt_trichotomy key e.1 with hk | hk | hk
  · refine ⟨s.less interpolate key e.1,found,?_,
      h.less hs hlarge he hk,by dsimp only [SearchState.less]; omega⟩
    rw [probeStep,hr,ok_bind,if_pos hk]
    rfl
  · have hta : ∀ e' ∈ table.drop s.probeIndex, e' ∈ table := fun e' he' => mem_of_mem_drop he'
    obtain ⟨t,hd⟩ := readDuplicates_run key room (fun e' he' => ht.key_lt e' (hta e' he'))
      (fun e' he' => ht.reads e' (hta e' he')) (n := s.hi - (s.probeIndex + 1)) (by simp; omega)
        (found ++ [e.2]) rest
    have htk : (table.drop (s.probeIndex - 1)).take (s.hi - s.probeIndex) =
        e :: (table.drop s.probeIndex).take (s.hi - (s.probeIndex + 1)) := by
      rw [hc,show s.hi - s.probeIndex = s.hi - (s.probeIndex + 1) + 1 by omega,take_succ_cons]
    refine ⟨_,_,?_,h.equal hs hlarge he hk.symm rfl,by dsimp only [SearchState.equal]; omega⟩
    rw [probeStep,hr,ok_bind,if_neg (by omega),if_pos hk,readEqual,run_bind_of_ok (ht.reads e hmem _),
      h.result_eq,writeResult_take,hd,ok_bind,htk,run_cons_self hk.symm,append_assoc,singleton_append]
    rfl
  · refine ⟨s.greater interpolate key e.1,found,?_,
      h.greater hs hlarge he hk,by dsimp only [SearchState.greater]; omega⟩
    rw [probeStep,hr,ok_bind,if_neg (by omega),if_neg (by omega)]
    rfl

theorem loop (h : Probing key room table s found) (hs : SortedKeys table)
    (ht : TableAt bytes readStart pairSize readValue enc table) {fuel : ℕ} (hf : s.hi - s.lo ≤ fuel) :
    ∃ s' found', probeLoop interpolate key room readValue bytes readStart pairSize fuel s = .ok s' ∧
      Probing key room table s' found' ∧ s'.hi ≤ s'.lo + readWindowSize := by
  induction fuel generalizing s found with
  | zero => exact ⟨s,found,rfl,h,by omega⟩
  | succ fuel ih =>
    rw [probeLoop]
    by_cases hlarge : s.lo + readWindowSize < s.hi
    · obtain ⟨s',found',hst,hin,hd⟩ := h.step interpolate hs ht hlarge
      rw [if_pos hlarge,hst,ok_bind]
      exact ih hin (by omega)
    · rw [if_neg hlarge]
      exact ⟨s,found,rfl,h,by omega⟩

end Probing

/-- Whatever the guesses are, the search finds all values of its key, in some order and up to the
room there is. -/
theorem searchOnSortedU64s_spec (hs : SortedKeys table)
    (ht : TableAt bytes readStart pairSize readValue enc table) :
    ∃ values : List ν, values.Perm (hits key table) ∧
      searchOnSortedU64s interpolate key room readValue bytes readStart pairSize table.length =
        .ok (values.take room) := by
  rw [searchOnSortedU64s]
  by_cases hr : room = 0
  · rw [if_pos hr,hr]
    exact ⟨hits key table,Perm.refl _,rfl⟩
  · obtain ⟨s,found,hl,hin,-⟩ := (Probing.start interpolate key room table).loop hs ht
      (Nat.le_refl (table.length + 1))
    have hlt := hin.searched.lo_lt
    have hle := hin.searched.hi_le
    obtain ⟨rest,hre⟩ := ht.drop_eq
    have hd := hre s.lo
    rw [Nat.min_eq_left (by omega)] at hd
    have hta : ∀ e' ∈ table.drop s.lo, e' ∈ table := fun e' he' => mem_of_mem_drop he'
    obtain ⟨t,hsc⟩ := scanWindow_run key room (hs.drop s.lo)
      (fun e' he' => ht.key_lt e' (hta e' he')) (fun e' he' => ht.reads e' (hta e' he'))
      (n := s.hi - 1 - s.lo) (by simp; omega) found rest
    refine ⟨_,hin.searched.finish,?_⟩
    rw [if_neg hr,hl,ok_bind,hin.result_eq,hd,hsc]
    rfl

/-- The search ends, and fills as much of the result as there is with values at different places of
the key. -/
theorem searchOnSortedU64s_results (interpolate : Interpolation) (key : ℕ) (hs : SortedKeys table)
    (ht : TableAt bytes readStart pairSize readValue enc table) :
    (∃ s, probeLoop interpolate key room readValue bytes readStart pairSize (table.length + 1) {
        lo := 0
        loKey := 0
        hi := table.length + 1
        hiKey := u64Max
        probeIndex := computeProbeLocation interpolate key 0 0 (table.length + 1) u64Max
        result := [] } = .ok s ∧ s.hi ≤ s.lo + readWindowSize) ∧
    ∃ result, searchOnSortedU64s interpolate key room readValue bytes readStart pairSize
      table.length = .ok result ∧
      result.length = min (table.countP fun e => e.1 = key) room ∧
      ∃ places : List ℕ, places.Nodup ∧
        places.map (fun i => table[i]?) = result.map (fun v => some (key,v)) ∧
        ((table.countP fun e => e.1 = key) ≤ room → ∀ i v, table[i]? = some (key,v) → i ∈ places) := by
  obtain ⟨s,found,hloop,-,hleft⟩ := (Probing.start interpolate key room table).loop hs ht (Nat.le_refl _)
  obtain ⟨values,hperm,hsearch⟩ : ∃ values : List ν, values.Perm (hits key table) ∧
      searchOnSortedU64s interpolate key room readValue bytes readStart pairSize table.length =
        .ok (values.take room) := searchOnSortedU64s_spec hs ht
  have hcount : values.length = table.countP fun e => e.1 = key := by
    rw [hperm.length_eq,hits,length_map,countP_eq_length_filter]
  obtain ⟨places,hnodup,hentries,hall⟩ := places_of_perm hperm room
  refine ⟨⟨s,hloop,hleft⟩,values.take room,hsearch,?_,places,hnodup,hentries,?_⟩
  · rw [length_take,hcount,Nat.min_comm]
  · rwa [← hcount]

theorem tableAt_words {table : List (ℕ × ℕ)} (h : ∀ e ∈ table, e.1 < 2 ^ 64 ∧ e.2 < 2 ^ 32) :
    TableAt (table.flatMap (pairBytes writeU32)) 0 12 readU32 writeU32 table where
  stored := ⟨[],by rw [drop_zero,append_nil]⟩
  key_lt e he := (h e he).1
  reads e he := reads_u32 (h e he).2
  size v := by rw [length_writeU32]

theorem searchOnSortedU64s_results_three :
    ∃ result, searchOnSortedU64s (fun _ _ size => size) 7 1 readU32
        ([(3,1),(7,2),(7,4)].flatMap (pairBytes writeU32)) 0 12 3 = .ok result ∧
        result.length = min 2 1 := by
  obtain ⟨-,result,hresult,hlength,-⟩ := searchOnSortedU64s_results (fun _ _ size => size) 7
    (show SortedKeys [(3,1),(7,2),(7,4)] by unfold SortedKeys; decide) (tableAt_words (by decide))
  exact ⟨result,hresult,hlength⟩

end Spec
end XetCore.Shard
