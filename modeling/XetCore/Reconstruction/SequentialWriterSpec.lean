import XetCore.Reconstruction.SequentialWriter

/-! # What the writer thread writes

What was written, the pending writes and the items to come are together the data of the file.
The loop ends if no item is empty. An empty item that is written alone is taken for an output
that takes nothing.
-/
namespace XetCore.Reconstruction.SyncWriterThread
open Fuel List

variable (timing : Timing) {out : Output} {items ds : List Bytes} {t : SyncWriterThread}
variable {writes : List Bytes} {t' : SyncWriterThread} {d : Bytes}

/-- What was written and what is left to write are the items. -/
structure Accounts (items : List Bytes) (t : SyncWriterThread) (left : List Bytes) : Prop where
  bytes : t.output ++ left.flatten = items.flatten
  written : t.bytesWritten = t.output.length
  permits : t.releasedPermits + left.length = items.length

theorem Accounts.of_account {left : List Bytes} (h : Accounts items t left)
    (ha : t'.account = t.account) : Accounts items t' left := by
  obtain ⟨ho,hw,hp,-⟩ : t'.output = t.output ∧ t'.bytesWritten = t.bytesWritten ∧
    t'.releasedPermits = t.releasedPermits ∧ t'.calls = t.calls := by simpa [account] using ha
  exact ⟨ho ▸ h.bytes,hw.trans (ho ▸ h.written),hp ▸ h.permits⟩

theorem Accounts.new (items : List Bytes) : Accounts items (new items) items := ⟨rfl,rfl,Nat.zero_add _⟩

theorem Remaining.new (items : List Bytes) : Remaining (new items) items := .waiting rfl rfl

/-- The thread wrote all items, counted their bytes and released their permits. -/
structure WroteAll (items : List Bytes) (t : SyncWriterThread) : Prop where
  output : t.output = items.flatten
  bytesWritten : t.bytesWritten = items.flatten.length
  permits : t.releasedPermits = items.length

theorem Accounts.wroteAll (h : Accounts items t []) : WroteAll items t := by
  have ho : t.output = items.flatten := by simpa using h.bytes
  exact ⟨ho,ho ▸ h.written,h.permits⟩

theorem popWritten_flatten (n : ℕ) (writes : List Bytes) :
    (popWritten n writes).flatten = writes.flatten.drop n := by
  induction writes generalizing n with
  | nil => simp [popWritten]
  | cons front rest ih =>
    unfold popWritten
    split
    · rename_i hn
      rw [hn,drop_zero]
    · split_ifs with hle
      · rw [ih,flatten_cons,drop_append,drop_eq_nil_of_le hle,nil_append]
      · rw [flatten_cons,flatten_cons,drop_append_of_le_length (by omega)]

theorem popWritten_length_le (n : ℕ) (writes : List Bytes) :
    (popWritten n writes).length ≤ writes.length := by
  induction writes generalizing n with
  | nil => simp [popWritten]
  | cons front rest ih =>
    unfold popWritten
    split
    · rfl
    · split
      · exact (ih _).trans (Nat.le_succ _)
      · rfl

theorem popWritten_ne_nil (h : ∀ d ∈ writes, d ≠ []) (n : ℕ) : ∀ d ∈ popWritten n writes, d ≠ [] := by
  induction writes generalizing n with
  | nil => exact h
  | cons front rest ih =>
    have hr : ∀ d ∈ rest, d ≠ [] := fun d hd => h d (mem_cons_of_mem _ hd)
    unfold popWritten
    split
    · exact h
    · split
      · exact ih hr _
      · intro d hd
        obtain rfl | hd := mem_cons.mp hd
        · intro hn
          have hlen := drop_eq_nil_iff.mp hn
          omega
        · exact hr d hd

theorem write_interrupted (h : out.interrupts t.calls = true) (bytes : Bytes) :
    t.write out bytes = (none,{ t with calls := t.calls + 1 }) := by
  simp [write,h]

theorem write_accepted (h : out.interrupts t.calls = false) (bytes : Bytes) :
    t.write out bytes = (some (out.accepts t.calls bytes.length),{ t with
        calls := t.calls + 1
        output := t.output ++ bytes.take (out.accepts t.calls bytes.length) }) := by
  simp [write,h]

theorem Remaining.of_eq (h : Remaining t ds) (hrx : t'.rx = t.rx)
    (hp : t'.pending = t.pending) (hf : t'.finished = t.finished) : Remaining t' ds := by
  cases h with
  | waiting running items => exact .waiting (hf.trans running) (by rw [hrx,hp,items])
  | done finished pending rx => exact .done (hf.trans finished) (hp.trans pending) (hrx.trans rx)

theorem take_flatten_ne_nil (h : ∀ d ∈ writes, d ≠ []) (hne : writes ≠ []) :
    0 < (writes.take writevMaxSlice).flatten.length := by
  cases writes with
  | nil => exact absurd rfl hne
  | cons front rest =>
    have hf := length_pos_of_ne_nil (h front mem_cons_self)
    simp only [take_succ_cons,flatten_cons,length_append]
    omega

theorem writeVectored_accepted (ha : Accounts items t (writes ++ ds))
    (hr : Remaining t ds) (hne : ∀ d ∈ writes, d ≠ []) (hso : writes ≠ [])
    (hc : out.interrupts t.calls = false) :
    ∃ t' rest, t.writeVectored out writes = .ok (t',rest) ∧ Accounts items t' (rest ++ ds) ∧
    Remaining t' ds ∧
      (∀ d ∈ rest, d ≠ []) ∧ rest.flatten.length < writes.flatten.length := by
  have hb := take_flatten_ne_nil hne hso
  have hle := out.accepts_le t.calls (writes.take writevMaxSlice).flatten.length
  have hpo := out.accepts_pos t.calls _ hb
  -- the bytes that are handed over are the first of the pending ones
  have hs : writes.flatten = (writes.take writevMaxSlice).flatten ++
    (writes.drop writevMaxSlice).flatten := by
    rw [← flatten_append,take_append_drop]
  have ht : ((writes.take writevMaxSlice).flatten ++ (writes.drop writevMaxSlice).flatten).take
      (out.accepts t.calls (writes.take writevMaxSlice).flatten.length) = _ :=
        take_append_of_le_length hle
  unfold writeVectored
  rw [write_accepted hc]
  generalize out.accepts t.calls (writes.take writevMaxSlice).flatten.length = n at hle hpo ht ⊢
  rw [← hs] at ht
  refine ⟨_,_,if_neg (fun h => hpo.ne' h.1),⟨?_,?_,?_⟩,hr.of_eq rfl rfl rfl,popWritten_ne_nil hne n,?_⟩
  · rw [← ha.bytes,flatten_append,flatten_append,popWritten_flatten,← ht,append_assoc,
      ← append_assoc (List.take n _),take_append_drop]
  · rw [ha.written,length_append,length_take,Nat.min_eq_left hle]
  · have hlen := popWritten_length_le n writes
    have hp := ha.permits
    simp only [length_append] at hp ⊢
    omega
  · rw [popWritten_flatten,length_drop]
    have hlen := congrArg List.length hs
    rw [length_append] at hlen
    omega

/-- The state of the vectorized loop: the pending writes, and the items to come. -/
structure Writing (items : List Bytes) (t : SyncWriterThread) (writes ds : List Bytes) : Prop where
  accounts : Accounts items t (writes ++ ds)
  remaining : Remaining t ds
  nonempty : ∀ d ∈ writes ++ ds, d ≠ []

variable (out)

theorem Writing.round (h : Writing items t writes ds) :
    (∃ t', (∀ fuel, runVectorized timing out (fuel + 1) t writes = some (.ok t')) ∧ WroteAll items t') ∨
    ∃ t' writes' ds', (∀ fuel, runVectorized timing out (fuel + 1) t writes =
      runVectorized timing out fuel t' writes') ∧
      Writing items t' writes' ds' ∧
      ((out.interrupts t.calls = true ∧ t'.calls = t.calls + 1 ∧ writes' ++ ds' = writes ++ ds) ∨
        (writes' ++ ds').flatten.length < (writes ++ ds).flatten.length) := by
  by_cases he : t.finished = true ∧ writes = []
  · left
    refine ⟨t,fun fuel => by rw [runVectorized,if_pos he],?_⟩
    obtain ⟨hf,rfl⟩ := he
    cases h.remaining with
    | waiting running => simp [hf] at running
    | done => exact h.accounts.wroteAll
  · have hr : ∀ fuel, runVectorized timing out (fuel + 1) t writes = _ :=
      fun fuel => by rw [runVectorized,if_neg he]
    obtain ⟨hac,hga⟩ := gather_spec timing h.remaining he
    cases hg : t.gather timing writes with
    | mk t₁ gathered =>
      rw [hg] at hac hga
      cases gathered with
      | none =>
        left
        refine ⟨t₁,fun fuel => by rw [hr,hg],?_⟩
        have ha := h.accounts
        rw [hga] at ha
        exact (ha.of_account hac).wroteAll
      | some writes₁ =>
        right
        obtain ⟨hso,rest,hs,hre⟩ := hga
        have hne := h.nonempty
        have ha := h.accounts
        rw [← hs] at hne ha ⊢
        replace ha := ha.of_account hac
        have hca : t₁.calls = t.calls := by simp only [account,Prod.mk.injEq] at hac; exact hac.2.2.2
        cases hc : out.interrupts t₁.calls with
        | true =>
          refine ⟨{ t₁ with calls := t₁.calls + 1 },writes₁,rest,fun fuel => ?_,
            ⟨{ ha with },hre.of_eq rfl rfl rfl,hne⟩,.inl ⟨hca ▸ hc,?_,rfl⟩⟩
          · rw [hr,hg]
            simp [writeVectored,write_interrupted hc]
          · rw [← hca]
        | false =>
          have hne₁ : ∀ d ∈ writes₁, d ≠ [] := fun d hd => hne d (mem_append_left _ hd)
          obtain ⟨t₂,writes₂,hw,hac₂,hre₂,hne₂,hlt⟩ := writeVectored_accepted ha hre hne₁ hso hc
          refine ⟨t₂,writes₂,rest,fun fuel => by rw [hr,hg]; simp [hw],⟨hac₂,hre₂,?_⟩,.inr ?_⟩
          · intro d hd
            obtain hd | hd := mem_append.mp hd
            · exact hne₂ d hd
            · exact hne d (mem_append_right _ hd)
          · simp only [flatten_append,length_append]
            omega

theorem Writing.returns (h : Writing items t writes ds) :
    ∃ t', Returns (fun fuel => runVectorized timing out fuel t writes) (.ok t') ∧ WroteAll items t' := by
  suffices ha : ∀ s : SyncWriterThread × List Bytes × List Bytes, Writing items s.1 s.2.1 s.2.2 →
      ∃ t', Returns (fun fuel => runVectorized timing out fuel s.1 s.2.1) (.ok t') ∧
        WroteAll items t' from
    ha (t,writes,ds) h
  refine fair_induction out.fair (fun s => s.1.calls) (fun s => (s.2.1 ++ s.2.2).flatten.length) ?_
  rintro ⟨t,writes,ds⟩ ih h
  obtain ⟨t',he,ha⟩ | ⟨t',writes',ds',hst,h',hca⟩ := h.round timing out
  · exact ⟨t',returns_of_eq he,ha⟩
  · obtain ⟨t₂,hr,ha⟩ := ih (t',writes',ds')
      (hca.imp_left fun ⟨hin,hc,hs⟩ => ⟨hin,hc,by simp [hs]⟩) h'
    exact ⟨t₂,hr.step hst,ha⟩

/-! ### Writing one item after the other -/

theorem writeAll_returns (t : SyncWriterThread) (bytes : Bytes) :
    ∃ calls, Returns (fun fuel => writeAll out fuel t bytes)
      (.ok { t with output := t.output ++ bytes, calls := calls }) := by
  suffices ha : ∀ s : SyncWriterThread × Bytes, ∃ calls, Returns (fun fuel => writeAll out fuel s.1 s.2)
      (.ok { s.1 with output := s.1.output ++ s.2, calls := calls }) from ha (t,bytes)
  refine fair_induction out.fair (fun s => s.1.calls) (fun s => s.2.length) ?_
  rintro ⟨t,bytes⟩ ih
  by_cases he : bytes = []
  · exact ⟨t.calls,returns_of_eq fun fuel => by simp [writeAll,he]⟩
  cases hc : out.interrupts t.calls with
  | true =>
    obtain ⟨calls,hr⟩ := ih ({ t with calls := t.calls + 1 },bytes) (.inl ⟨hc,rfl,rfl⟩)
    exact ⟨calls,hr.step fun fuel => by rw [writeAll,if_neg he,write_interrupted hc]⟩
  | false =>
    have hp := out.accepts_pos t.calls _ (length_pos_of_ne_nil he)
    have hs : ∀ fuel, writeAll out (fuel + 1) t bytes = _ := fun fuel => by
      rw [writeAll,if_neg he,write_accepted hc]
    generalize out.accepts t.calls bytes.length = n at hp hs
    obtain ⟨k,rfl⟩ := Nat.exists_eq_add_of_le' (show 1 ≤ n from hp)
    have hsh : (bytes.drop (k + 1)).length < bytes.length := by
      have := length_pos_of_ne_nil he
      rw [length_drop]
      omega
    obtain ⟨calls,hr⟩ := ih ({ t with calls := t.calls + 1, output := t.output ++ bytes.take (k + 1) },
      bytes.drop (k + 1)) (.inr hsh)
    refine ⟨calls,?_⟩
    rw [append_assoc,take_append_drop] at hr
    exact hr.step hs

theorem run_returns (ha : Accounts items t ds) (hre : Remaining t ds) (hru : t.finished = false) :
    ∃ t', Returns (fun fuel => run timing out fuel t) (.ok t') ∧ WroteAll items t' := by
  induction ds generalizing t with
  | nil =>
    have hp := hre.nextWrite timing true
    have hb := hre.nextWrite_block timing hru
    refine ⟨(t.nextWrite timing true).2,returns_of_eq fun fuel => ?_,(ha.of_account hp.account).wroteAll⟩
    rw [run,← Prod.mk.eta (p := t.nextWrite timing true),hb]
    rfl
  | cons d rest ih =>
    have hp := hre.nextWrite timing true
    have hb := hre.nextWrite_block timing hru
    have hs : ∀ fuel, run timing out (fuel + 1) t = _ := fun fuel => by
      rw [run,← Prod.mk.eta (p := t.nextWrite timing true),hb,head?_cons]
    obtain ⟨_,heq,hr⟩ := hp.some d hb
    rw [← (cons.inj heq).2] at hr
    have ha₁ := ha.of_account hp.account
    generalize (t.nextWrite timing true).2 = t₁ at hs hr ha₁
    obtain ⟨calls,hw⟩ := writeAll_returns out t₁ d
    let t₂ := { t₁ with
      output := t₁.output ++ d, calls := calls
      bytesWritten := t₁.bytesWritten + d.length, releasedPermits := t₁.releasedPermits + 1 }
    have hre₂ : Remaining t₂ rest := hr.of_eq rfl rfl rfl
    have ha₂ : Accounts items t₂ rest := by
      refine ⟨?_,?_,?_⟩
      · rw [← ha₁.bytes,flatten_cons,append_assoc]
      · rw [length_append,← ha₁.written]
      · rw [← ha₁.permits,length_cons,Nat.add_right_comm,Nat.add_assoc]
    cases hfi : t₂.finished with
    | true =>
      have hni : rest = [] := by
        cases hre₂ with
        | waiting running => simp [hfi] at running
        | done => rfl
      refine ⟨t₂,(hw.bind (returns_of_eq fun fuel => ?_)).step hs,(hni ▸ ha₂).wroteAll⟩
      exact if_pos hfi
    | false =>
      obtain ⟨t',hrt,hal⟩ := ih ha₂ hre₂ hfi
      obtain ⟨n,hn⟩ := hrt
      refine ⟨t',(hw.bind ⟨n,fun fuel hf => ?_⟩).step hs,hal⟩
      refine Eq.trans (if_neg ?_) (hn fuel hf)
      exact Bool.not_eq_true _ ▸ hfi

/-! ### Items that are empty -/

def lateItems : Timing := ⟨fun _ => false,fun _ => false⟩

def takesAll : Output where
  interrupts := fun _ => false
  accepts := fun _ n => n
  accepts_le := fun _ _ => le_rfl
  accepts_pos := fun _ _ h => h
  fair := fun call => ⟨call,le_rfl,rfl⟩

theorem gather_late {rx : List SequentialRetrievalItem} (hp : t.pending = none)
    (hrx : t.rx = .data d :: rx) :
    t.gather lateItems [] = ({ t with rx := rx, polls := t.polls + 1 },some [d]) := by
  simp [gather,pollMore,nextWrite,receive,takePending,lateItems,hp,hrx]

theorem writeVectored_takesAll (t : SyncWriterThread) (hd : d ≠ []) :
    ∃ t', t.writeVectored takesAll [d] = .ok (t',[]) ∧ t'.rx = t.rx ∧ t'.pending = t.pending ∧
      t'.finished = t.finished := by
  have hpo := length_pos_of_ne_nil hd
  have hp : popWritten d.length [d] = [] := by simp [popWritten,hpo.ne']
  refine ⟨{ t with
    calls := t.calls + 1, output := t.output ++ d
    bytesWritten := t.bytesWritten + d.length, releasedPermits := t.releasedPermits + 1 },?_,rfl,rfl,rfl⟩
  simp [writeVectored,write,takesAll,hp,hd]

theorem runVectorized_late (fuel : ℕ) (he : [] ∈ ds) (hp : t.pending = none)
    (hru : t.finished = false) (hrx : t.rx = ds.map .data ++ [.finish]) (t' : SyncWriterThread) :
    runVectorized lateItems takesAll fuel t [] ≠ some (.ok t') := by
  induction fuel generalizing t ds with
  | zero => simp [runVectorized]
  | succ fuel ih =>
    cases ds with
    | nil => exact absurd he not_mem_nil
    | cons d rest =>
      have hf : t.rx = .data d :: (rest.map .data ++ [.finish]) := hrx
      rw [runVectorized,if_neg (by simp [hru]),gather_late hp hf]
      by_cases hd : d = []
      · subst hd
        simp [writeVectored,write,takesAll]
      · obtain ⟨t₂,hw,hrx₂,hp₂,hru₂⟩ :=
          writeVectored_takesAll { t with rx := rest.map .data ++ [.finish], polls := t.polls + 1 } hd
        simp only [hw]
        have hr : [] ∈ rest := (mem_cons.mp he).resolve_left (Ne.symm hd)
        exact ih hr (hp₂.trans hp) (hru₂.trans hru) hrx₂

/-- The vectorized loop and the plain one both write the items. -/
def WritesItems (timing : Timing) (out : Output) (items : List Bytes) : Prop :=
  (∃ t, Returns (fun fuel => runVectorized timing out fuel (new items) []) (.ok t) ∧ WroteAll items t) ∧
    ∃ t, Returns (fun fuel => run timing out fuel (new items)) (.ok t) ∧ WroteAll items t

theorem writesItems_iff (items : List Bytes) :
    (∀ timing out, WritesItems timing out items) ↔ ∀ d ∈ items, d ≠ [] := by
  constructor
  · intro h d hd hnil
    obtain ⟨⟨t,⟨n,hret⟩,-⟩,-⟩ := h lateItems takesAll
    exact runVectorized_late n (hnil ▸ hd) rfl rfl rfl t (hret n le_rfl)
  · intro hne timing out
    have hwriting : Writing items (new items) [] items := ⟨.new items,.new items,hne⟩
    exact ⟨hwriting.returns timing out,run_returns timing out (.new items) (.new items) rfl⟩

/-- With everything sent and ready, an empty last item stays behind and is then written alone. -/
theorem empty_last_item_fails :
    ∃ timing out, Returns (fun fuel => runVectorized timing out fuel (new [[1],[]]) [])
      (.error .writeZero) ∧
      ¬WritesItems timing out [[1],[]] := by
  let everything : Timing := ⟨fun _ => true,fun _ => true⟩
  have hret : Returns (fun fuel => runVectorized everything takesAll fuel (new [[1],[]]) [])
    (.error .writeZero) :=
    ⟨2,fun fuel hfuel => by
      obtain ⟨k,rfl⟩ := Nat.exists_eq_add_of_le' hfuel
      rfl⟩
  refine ⟨everything,takesAll,hret,?_⟩
  rintro ⟨⟨t,hok,-⟩,-⟩
  exact absurd (hret.unique hok) (by simp)

end XetCore.Reconstruction.SyncWriterThread
