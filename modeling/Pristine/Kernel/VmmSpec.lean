import Pristine.Kernel.PageTable

/-!
# What the page-table operations do to the tree

`Grew` is the effect of walking down a path and creating the tables that are
missing on it: the tree property is kept, existing tables stay where they are,
and no entry changes except empty ones on the path.  Growth composes, so
`vmm_map` is three growth steps (`vmmNextTable_grew`) and one write
(`vmmMap_ok_inv`).
-/

namespace Pristine.Kernel

open Lib

/-- The logged access concerns a table on the path. -/
def OnPath (root : Nat) (path : List (Fin 512)) (mem : ByteMem) : Access → Prop
  | .read addr | .write addr =>
    ∃ (q : List (Fin 512)) (j : Fin 512) (t : Nat), q ++ [j] <+: path ∧
      tableAt mem root q = some t ∧ addr = t + 8 * j
  | .zero frame => ∃ q, q ≠ [] ∧ q <+: path ∧ tableAt mem root q = some frame
  | .free _ => False

/-- Tables may have been created along `path`; nothing else happened. -/
structure Grew (P : List (Fin 512) → Prop) (root : Nat) (path : List (Fin 512))
    (s s' : Machine) : Prop where
  tree : PageTree P s' root
  balanced : ∀ B, Balanced P B s root → Balanced P B s' root
  keep : ∀ q t, P q → tableAt s.mem root q = some t → tableAt s'.mem root q = some t
  fresh : ∀ q t, P q → tableAt s'.mem root q = some t →
    tableAt s.mem root q = some t ∨ bitAt s.pmm.bitmap (t / pageSize) = false
  entries : ∀ q j, P q → entryAt s'.mem root q j = entryAt s.mem root q j ∨
    (entryAt s.mem root q j = 0 ∧ q ++ [j] <+: path ∧
      ∃ f, TableLink (entryAt s'.mem root q j) f)
  bits : ∀ i, bitAt s.pmm.bitmap i = true → bitAt s'.pmm.bitmap i = true
  memory : ∀ a, bitAt s.pmm.bitmap (a / pageSize) = true →
    (∀ q t, P q → tableAt s.mem root q = some t → a / pageSize ≠ t / pageSize) →
    s'.mem a = s.mem a
  logged : ∃ l, s'.log = l ++ s.log ∧ ∀ acc ∈ l, OnPath root path s'.mem acc

section Grew

variable {P : List (Fin 512) → Prop} {root : Nat} {path path' : List (Fin 512)}
variable {s s₁ s2 : Machine}

/-- A logged access is on longer paths too, and tables that stay where they are keep it on its path. -/
theorem OnPath.mono {mem mem' : ByteMem} {acc : Access} (hpath : path <+: path')
    (hkeep : ∀ q t, q <+: path → tableAt mem root q = some t → tableAt mem' root q = some t)
    (hon : OnPath root path mem acc) : OnPath root path' mem' acc := by
  have hentry {addr : Nat} (h : ∃ (q : List (Fin 512)) (j : Fin 512) (t : Nat), q ++ [j] <+: path ∧
      tableAt mem root q = some t ∧ addr = t + 8 * j) : OnPath root path' mem' (.read addr) := by
    obtain ⟨q, j, t, hpre, ht, rfl⟩ := h
    exact ⟨q, j, t, hpre.trans hpath, hkeep q t ((List.prefix_append q [j]).trans hpre) ht, rfl⟩
  cases acc with
  | read addr => exact hentry hon
  | write addr => exact hentry hon
  | zero frame =>
    obtain ⟨q, hne, hpre, ht⟩ := hon
    exact ⟨q, hne, hpre.trans hpath, hkeep q frame hpre ht⟩
  | free frame => exact hon.elim

theorem Grew.refl (htree : PageTree P s root) (path : List (Fin 512)) : Grew P root path s s :=
  ⟨htree, fun _ hB => hB, fun _ _ _ ht => ht, fun _ _ _ ht => Or.inl ht, fun _ _ _ => Or.inl rfl,
    fun _ hi => hi, fun _ _ _ => rfl, [], rfl, by simp⟩

/-- Reading an entry on the path. -/
theorem Grew.read (htree : PageTree P s root) {q : List (Fin 512)} {j : Fin 512} {t : Nat}
    (hpre : q ++ [j] <+: path) (ht : tableAt s.mem root q = some t) :
    Grew P root path s { s with log := .read (t + 8 * j) :: s.log } := by
  refine ⟨⟨htree.unique, htree.aligned, htree.small, htree.used⟩, fun _ hB => hB,
    fun _ _ _ hu => hu, fun _ _ _ hu => Or.inl hu, fun _ _ _ => Or.inl rfl, fun _ hk => hk,
    fun _ _ _ => rfl, [.read (t + 8 * j)], rfl, fun acc hacc => ?_⟩
  obtain rfl := List.mem_singleton.mp hacc
  exact ⟨q, j, t, hpre, ht, rfl⟩

theorem Grew.mono (hgrew : Grew P root path s s₁) (hpath : path <+: path') :
    Grew P root path' s s₁ := by
  refine ⟨hgrew.tree, hgrew.balanced, hgrew.keep, hgrew.fresh, ?_, hgrew.bits,
    hgrew.memory, ?_⟩
  · intro q j hq
    rcases hgrew.entries q j hq with hsame | ⟨hzero, hpre, hlink⟩
    · exact Or.inl hsame
    · exact Or.inr ⟨hzero, hpre.trans hpath, hlink⟩
  · obtain ⟨l, hlog, hon⟩ := hgrew.logged
    exact ⟨l, hlog, fun acc hacc => (hon acc hacc).mono hpath fun _ _ _ ht => ht⟩

theorem Grew.trans (hclosed : PrefixClosed P) (hpath : P path)
    (h1 : Grew P root path s s₁) (h2 : Grew P root path s₁ s2) : Grew P root path s s2 := by
  refine ⟨h2.tree, fun B hB => h2.balanced B (h1.balanced B hB), ?_, ?_, ?_, ?_, ?_, ?_⟩
  · intro q t hq ht
    exact h2.keep q t hq (h1.keep q t hq ht)
  · intro q t hq ht
    rcases h2.fresh q t hq ht with hold | hnew
    · exact h1.fresh q t hq hold
    · refine Or.inr (Bool.eq_false_iff.mpr fun hused => ?_)
      rw [h1.bits _ hused] at hnew
      cases hnew
  · intro q j hq
    rcases h1.entries q j hq with hsame1 | ⟨hzero, hpre, f, hlink⟩
    · rw [← hsame1]
      exact h2.entries q j hq
    · rcases h2.entries q j hq with hsame2 | ⟨hzero2, -, -⟩
      · exact Or.inr ⟨hzero, hpre, f, by rw [hsame2]; exact hlink⟩
      · -- an entry linked by the first step is not empty for the second
        exact absurd hzero2 hlink.ne_zero
  · intro i hi
    exact h2.bits i (h1.bits i hi)
  · intro a hused haway
    rw [h2.memory a (h1.bits _ hused), h1.memory a hused haway]
    -- the tables in between are old ones or were not in use
    intro q t hq ht
    rcases h1.fresh q t hq ht with hold | hnew
    · exact haway q t hq hold
    · intro hsame
      rw [← hsame, hused] at hnew
      cases hnew
  · obtain ⟨l1, hlog1, hon1⟩ := h1.logged
    obtain ⟨l2, hlog2, hon2⟩ := h2.logged
    refine ⟨l2 ++ l1, by rw [hlog2, hlog1, List.append_assoc], ?_⟩
    intro acc hacc
    rcases List.mem_append.mp hacc with hin | hin
    · exact hon2 acc hin
    · exact (hon1 acc hin).mono (List.prefix_refl _) fun q t hpre =>
        h2.keep q t (hclosed.mono hpre hpath)

theorem Grew.entry_page_clear (hgrew : Grew P root path s s₁) {q : List (Fin 512)}
    {j : Fin 512} (hq : P q) (hclear : entryAt s.mem root q j &&& vmmPageSizeFlag = 0) :
    entryAt s₁.mem root q j &&& vmmPageSizeFlag = 0 := by
  rcases hgrew.entries q j hq with hsame | ⟨-, -, f, hlink⟩
  · rw [hsame]
    exact hclear
  · exact hlink.not_page

end Grew

/-! ## `vmm_init` -/

/-- What `vmm_init` does: it takes a clear frame and zeroes it. -/
theorem vmmInit_ok_inv {debug : Bool} {root : Nat} {s s' : Machine}
    (hcall : vmmInit debug s = .ok (root, s')) :
    ∃ idx, IsFirstClear s.pmm.bitmap s.pmm.bitCount idx ∧ root = idx * pageSize ∧
      s' = { pmm := { s.pmm with bitmap := bitmapSet s.pmm.bitmap idx }
             mem := fill s.mem root pageSize 0
             log := .zero root :: s.log } := by
  obtain ⟨frame, s₁, halloc, hcall⟩ := bind_ok_iff.mp hcall
  obtain ⟨idx, hfirst, rfl, rfl⟩ := allocPage_ok_iff.mp halloc
  obtain ⟨_, s2, hzero, hcall⟩ := bind_ok_iff.mp hcall
  obtain rfl := zeroPage_ok_iff.mp hzero
  obtain ⟨rfl, rfl⟩ := pure_ok_iff.mp hcall
  exact ⟨idx, hfirst, rfl, rfl⟩

theorem vmmInit_emptyRoot {debug : Bool} {root : Nat} {s s' : Machine}
    (hcall : vmmInit debug s = .ok (root, s')) : EmptyRoot s' root := by
  obtain ⟨idx, hfirst, rfl, rfl⟩ := vmmInit_ok_inv hcall
  have hdiv : idx * pageSize / pageSize = idx := Nat.mul_div_cancel idx (by decide)
  have haligned : idx * pageSize % pageSize = 0 := Nat.mul_mod_left idx pageSize
  refine ⟨haligned, ?_, ?_, ?_⟩
  · rw [hdiv]
    exact Nat.lt_trans hfirst.lt s.pmm.bitCount_lt
  · rw [hdiv]
    simp
  · intro j
    rw [tableEntry_fill _ j.isLt haligned haligned, if_pos rfl]

/-! ## One level of `vmm_map` -/

section NextTable

variable {P : List (Fin 512) → Prop} {debug : Bool} {root t t' iflags : Nat}
variable {p : List (Fin 512)} {i : Fin 512} {s s' : Machine}

/-- The two outcomes of a level: the entry leads to a table, or it was empty and
a zeroed frame is linked. -/
theorem vmmNextTable_ok_inv (hcall : vmmNextTable debug iflags t i s = .ok (t', s')) :
    (tableEntry s.mem t i ≠ 0 ∧ t' = tableEntry s.mem t i &&& pteAddrMask ∧
      s' = { s with log := .read (t + 8 * i) :: s.log }) ∨
    (tableEntry s.mem t i = 0 ∧ ∃ idx, IsFirstClear s.pmm.bitmap s.pmm.bitCount idx ∧
      t' = idx * pageSize ∧
      s' = linkedMachine s t i (idx * pageSize) iflags
        (.zero (idx * pageSize) :: .write (t + 8 * i) :: .read (t + 8 * i) :: s.log)) := by
  obtain ⟨entry, s₁, hread, hrest⟩ := bind_ok_iff.mp hcall
  obtain ⟨rfl, rfl⟩ := readEntry_ok_iff.mp hread
  split at hrest
  · rename_i hzero
    obtain ⟨frame, s2, halloc, hrest⟩ := bind_ok_iff.mp hrest
    obtain ⟨idx, hfirst, rfl, rfl⟩ := allocPage_ok_iff.mp halloc
    obtain ⟨_, s3, hwrite, hrest⟩ := bind_ok_iff.mp hrest
    obtain rfl := writeEntry_ok_iff.mp hwrite
    obtain ⟨_, s4, hzeroed, hrest⟩ := bind_ok_iff.mp hrest
    obtain rfl := zeroPage_ok_iff.mp hzeroed
    obtain ⟨rfl, rfl⟩ := pure_ok_iff.mp hrest
    refine Or.inr ⟨hzero, idx, hfirst, rfl, ?_⟩
    unfold linkedMachine linkedMem
    rw [Nat.mul_div_cancel idx (by decide)]
  · rename_i hne
    obtain ⟨rfl, rfl⟩ := pure_ok_iff.mp hrest
    exact Or.inl ⟨hne, rfl, rfl⟩

/-- A level grows the tree by at most the table it returns. -/
theorem vmmNextTable_grew (hclosed : PrefixClosed P) (htree : PageTree P s root) (hp : P p)
    (hpi : P (p ++ [i])) (hnode : tableAt s.mem root p = some t)
    (hclear : entryAt s.mem root p i &&& vmmPageSizeFlag = 0) (hiflags : LinkFlags iflags)
    (hcall : vmmNextTable debug iflags t i s = .ok (t', s')) :
    Grew P root (p ++ [i]) s s' ∧ tableAt s'.mem root (p ++ [i]) = some t' := by
  rw [entryAt_of_tableAt hnode] at hclear
  rcases vmmNextTable_ok_inv hcall with ⟨hne, rfl, rfl⟩ | ⟨hempty, idx, hfirst, rfl, rfl⟩
  · refine ⟨.read htree (List.prefix_refl _) hnode, ?_⟩
    rw [tableAt_snoc, entryAt_of_tableAt hnode]
    exact childTable_of_ne hne hclear
  · have hidx : idx < 2 ^ 32 := Nat.lt_trans hfirst.lt s.pmm.bitCount_lt
    have halign : idx * pageSize % pageSize = 0 := Nat.mul_mod_left idx pageSize
    have hwidth : idx * pageSize < 2 ^ 52 := by
      unfold pageSize
      omega
    have hmade := createTable hclosed htree hp hpi hnode hempty hidx hfirst.clear hiflags
      (.zero (idx * pageSize) :: .write (t + 8 * i) :: .read (t + 8 * i) :: s.log)
    have hkept := hmade.keep p t hp hnode
    refine ⟨⟨hmade.tree, hmade.balanced, hmade.keep, ?_, ?_, ?_, hmade.memory,
      [.zero (idx * pageSize), .write (t + 8 * i), .read (t + 8 * i)], rfl, ?_⟩, hmade.table⟩
    · intro q u hq hu
      rcases hmade.back q u hq hu with rfl | hold
      · right
        rw [Nat.mul_div_cancel idx (by decide)]
        exact hfirst.clear
      · exact Or.inl hold
    · intro q j hq
      rw [hmade.entries q j hq]
      split
      · rename_i hat
        obtain ⟨rfl, rfl⟩ := hat
        refine Or.inr ⟨?_, List.prefix_refl _, _, tableLink_or halign hwidth hiflags⟩
        rw [entryAt_of_tableAt hnode, hempty]
      · exact Or.inl rfl
    · intro k hk
      show bitAt (bitmapSet s.pmm.bitmap (idx * pageSize / pageSize)) k = true
      rw [bitAt_bitmapSet, hk, Bool.or_true]
    · intro acc hacc
      simp only [List.mem_cons, List.not_mem_nil, or_false] at hacc
      rcases hacc with rfl | rfl | rfl
      · exact ⟨p ++ [i], by simp, List.prefix_refl _, hmade.table⟩
      · exact ⟨p, i, t, List.prefix_refl _, hkept, rfl⟩
      · exact ⟨p, i, t, List.prefix_refl _, hkept, rfl⟩

end NextTable

/-! ## `vmm_map` -/

/-- The path of the page table that maps an address. -/
def pathToPt (virt : Nat) : List (Fin 512) :=
  [pml4Idx virt, pdptIdx virt, pdIdx virt]

theorem pathOf_eq (virt : Nat) : pathOf virt = pathToPt virt ++ [ptIdx virt] := rfl

section Map

variable {P : List (Fin 512) → Prop} {debug : Bool} {root phys virt flags : Nat}
variable {s s' : Machine}

/-- No table entry on the way to the page table maps a large page. -/
def NoLargeOnPath (mem : ByteMem) (root virt : Nat) : Prop :=
  ∀ (q : List (Fin 512)) (j : Fin 512), q ++ [j] <+: pathToPt virt →
    entryAt mem root q j &&& vmmPageSizeFlag = 0

/-- The three entries on the way. -/
theorem NoLargeOnPath.levels {mem : ByteMem} (h : NoLargeOnPath mem root virt) :
    entryAt mem root [] (pml4Idx virt) &&& vmmPageSizeFlag = 0 ∧
      entryAt mem root [pml4Idx virt] (pdptIdx virt) &&& vmmPageSizeFlag = 0 ∧
      entryAt mem root [pml4Idx virt, pdptIdx virt] (pdIdx virt) &&& vmmPageSizeFlag = 0 :=
  ⟨h [] _ (by simp [pathToPt]), h [_] _ (by simp [pathToPt]), h [_, _] _ (by simp [pathToPt])⟩

/-- The three levels grow the tree down to the page table. -/
theorem vmmPageTable_grew {iflags pt : Nat} (hclosed : PrefixClosed P)
    (htree : PageTree P s root) (hpath : P (pathToPt virt))
    (hclear : NoLargeOnPath s.mem root virt) (hiflags : LinkFlags iflags)
    (hcall : vmmPageTable debug iflags root virt s = .ok (pt, s')) :
    Grew P root (pathToPt virt) s s' ∧ tableAt s'.mem root (pathToPt virt) = some pt := by
  have hP2 : P [pml4Idx virt, pdptIdx virt] := hclosed.mono (by simp [pathToPt]) hpath
  have hP1 : P [pml4Idx virt] := hclosed.mono (by simp [pathToPt]) hpath
  have hP0 : P [] := hclosed.mono (by simp) hpath
  obtain ⟨hclear1, hclear2, hclear3⟩ := hclear.levels
  obtain ⟨pdpt, s₁, hnext1, hcall⟩ := bind_ok_iff.mp hcall
  obtain ⟨pd, s2, hnext2, hnext3⟩ := bind_ok_iff.mp hcall
  obtain ⟨hgrew1, htable1⟩ := vmmNextTable_grew hclosed htree hP0 hP1
    (tableAt_nil s.mem root) hclear1 hiflags hnext1
  obtain ⟨hgrew2, htable2⟩ := vmmNextTable_grew hclosed hgrew1.tree hP1 hP2 htable1
    (hgrew1.entry_page_clear hP1 hclear2) hiflags hnext2
  obtain ⟨hgrew3, htable3⟩ := vmmNextTable_grew hclosed hgrew2.tree hP2 hpath htable2
    (hgrew2.entry_page_clear hP2 (hgrew1.entry_page_clear hP2 hclear3)) hiflags hnext3
  refine ⟨?_, htable3⟩
  exact ((hgrew1.mono (by simp [pathToPt])).trans hclosed hpath
    (hgrew2.mono (by simp [pathToPt]))).trans hclosed hpath hgrew3

/-- `vmm_map` grows the tree down to the page table and writes one entry there. -/
structure MapDone (P : List (Fin 512) → Prop) (debug : Bool) (root phys virt flags : Nat)
    (s s₁ s' : Machine) (pt : Nat) : Prop where
  grew : Grew P root (pathToPt virt) s s₁
  table : tableAt s₁.mem root (pathToPt virt) = some pt
  empty : debug = true → entryAt s₁.mem root (pathToPt virt) (ptIdx virt) = 0
  mem : s'.mem = storeLE s₁.mem (pt + 8 * ptIdx virt) 8 (phys ||| flags)
  pmm : s'.pmm = s₁.pmm
  log : s'.log = .write (pt + 8 * ptIdx virt) :: s₁.log ∨
    s'.log = .write (pt + 8 * ptIdx virt) :: .read (pt + 8 * ptIdx virt) :: s₁.log

theorem vmmMap_ok_inv (hclosed : PrefixClosed P) (htree : PageTree P s root)
    (hpath : P (pathToPt virt)) (hclear : NoLargeOnPath s.mem root virt)
    (hcall : vmmMap debug root phys virt flags s = .ok ((), s')) :
    ∃ s₁ pt, MapDone P debug root phys virt flags s s₁ s' pt := by
  obtain ⟨-, hcall⟩ := panicIf_bind_ok_iff.mp hcall
  obtain ⟨-, hcall⟩ := panicIf_bind_ok_iff.mp hcall
  obtain ⟨pt, s₁, htables, hcall⟩ := bind_ok_iff.mp hcall
  obtain ⟨hgrew, htable⟩ := vmmPageTable_grew hclosed htree hpath hclear
    (tableFlags_linkFlags flags) htables
  refine ⟨s₁, pt, ?_⟩
  cases debug with
  | false =>
    obtain rfl := writeEntry_ok_iff.mp hcall
    exact ⟨hgrew, htable, by simp, rfl, rfl, Or.inl rfl⟩
  | true =>
    obtain ⟨hempty, hcall⟩ := panicIf_bind_ok_iff.mp (readEntry_bind.symm.trans hcall)
    obtain rfl := writeEntry_ok_iff.mp hcall
    refine ⟨hgrew, htable, fun _ => ?_, rfl, rfl, Or.inr rfl⟩
    rw [entryAt_of_tableAt htable]
    exact not_not.mp hempty

/-- All accesses of `vmm_map` are on the path of the page, if the final write
leaves the tables above it in place. -/
theorem MapDone.logged {s₁ : Machine} {pt : Nat}
    (hdone : MapDone P debug root phys virt flags s s₁ s' pt)
    (hkeep : ∀ q t, q <+: pathToPt virt → tableAt s₁.mem root q = some t →
      tableAt s'.mem root q = some t) :
    ∃ l, s'.log = l ++ s.log ∧ ∀ acc ∈ l, OnPath root (pathOf virt) s'.mem acc := by
  obtain ⟨l, hlog, hon⟩ := hdone.grew.logged
  have htable := hkeep _ _ (List.prefix_refl _) hdone.table
  have hon' : ∀ acc ∈ l, OnPath root (pathOf virt) s'.mem acc := by
    intro acc hacc
    exact (hon acc hacc).mono (List.prefix_append (pathToPt virt) [ptIdx virt]) hkeep
  have hwrite : OnPath root (pathOf virt) s'.mem (.write (pt + 8 * ptIdx virt)) :=
    ⟨pathToPt virt, _, _, List.prefix_refl _, htable, rfl⟩
  have hread : OnPath root (pathOf virt) s'.mem (.read (pt + 8 * ptIdx virt)) :=
    ⟨pathToPt virt, _, _, List.prefix_refl _, htable, rfl⟩
  rcases hdone.log with hlog' | hlog'
  · refine ⟨.write (pt + 8 * ptIdx virt) :: l, by rw [hlog', hlog]; rfl, ?_⟩
    simp only [List.forall_mem_cons]
    exact ⟨hwrite, hon'⟩
  · refine ⟨.write (pt + 8 * ptIdx virt) :: .read (pt + 8 * ptIdx virt) :: l,
      by rw [hlog', hlog]; rfl, ?_⟩
    simp only [List.forall_mem_cons]
    exact ⟨hwrite, hread, hon'⟩

end Map

/-! ## `vmm_unmap` -/

theorem childTable_eq_some_iff {entry f : Nat} :
    childTable entry = some f ↔
      entry ≠ 0 ∧ entry &&& vmmPageSizeFlag = 0 ∧ entry &&& pteAddrMask = f := by
  unfold childTable
  split_ifs with hnone
  · simp only [false_iff]
    intro hall
    rcases hnone with hzero | hpage
    · exact hall.1 hzero
    · exact hpage hall.2.1
  · push Not at hnone
    simp [hnone]

theorem tableAt_snoc_eq_some {mem : ByteMem} {root u : Nat} {p : List (Fin 512)} {i : Fin 512}
    (htable : tableAt mem root (p ++ [i]) = some u) :
    ∃ t, tableAt mem root p = some t ∧ tableEntry mem t i ≠ 0 ∧
      tableEntry mem t i &&& vmmPageSizeFlag = 0 ∧ tableEntry mem t i &&& pteAddrMask = u := by
  rw [tableAt_snoc] at htable
  cases ht : tableAt mem root p with
  | none =>
    rw [entryAt_of_none ht] at htable
    cases htable
  | some t =>
    rw [entryAt_of_tableAt ht] at htable
    exact ⟨t, rfl, childTable_eq_some_iff.mp htable⟩

/-- The tables on the way to a page table, with the entries that link them. -/
theorem tableAt_pathToPt {mem : ByteMem} {root virt pt : Nat}
    (htable : tableAt mem root (pathToPt virt) = some pt) :
    ∃ pdpt pd,
      (tableAt mem root [pml4Idx virt] = some pdpt ∧
        tableEntry mem root (pml4Idx virt) ≠ 0 ∧
        tableEntry mem root (pml4Idx virt) &&& vmmPageSizeFlag = 0 ∧
        tableEntry mem root (pml4Idx virt) &&& pteAddrMask = pdpt) ∧
      (tableAt mem root [pml4Idx virt, pdptIdx virt] = some pd ∧
        tableEntry mem pdpt (pdptIdx virt) ≠ 0 ∧
        tableEntry mem pdpt (pdptIdx virt) &&& vmmPageSizeFlag = 0 ∧
        tableEntry mem pdpt (pdptIdx virt) &&& pteAddrMask = pd) ∧
      (tableEntry mem pd (pdIdx virt) ≠ 0 ∧
        tableEntry mem pd (pdIdx virt) &&& vmmPageSizeFlag = 0 ∧
        tableEntry mem pd (pdIdx virt) &&& pteAddrMask = pt) := by
  have h3 : tableAt mem root ([pml4Idx virt, pdptIdx virt] ++ [pdIdx virt]) = some pt := htable
  obtain ⟨pd, hpd, hlink3⟩ := tableAt_snoc_eq_some h3
  have h2 : tableAt mem root ([pml4Idx virt] ++ [pdptIdx virt]) = some pd := hpd
  obtain ⟨pdpt, hpdpt, hlink2⟩ := tableAt_snoc_eq_some h2
  have h1 : tableAt mem root ([] ++ [pml4Idx virt]) = some pdpt := hpdpt
  obtain ⟨top, htop, hlink1⟩ := tableAt_snoc_eq_some h1
  cases htop
  exact ⟨pdpt, pd, ⟨hpdpt, hlink1⟩, ⟨hpd, hlink2⟩, hlink3⟩

/-- The accesses on the way to an entry of a page table, and to the entry. -/
theorem onPath_walk {mem : ByteMem} {root virt pdpt pd pt : Nat}
    (hpdpt : tableAt mem root [pml4Idx virt] = some pdpt)
    (hpd : tableAt mem root [pml4Idx virt, pdptIdx virt] = some pd)
    (hpt : tableAt mem root (pathToPt virt) = some pt) (mem' : ByteMem)
    (hkeep : ∀ q t, q <+: pathToPt virt → tableAt mem root q = some t → tableAt mem' root q = some t) :
    ∀ acc ∈ [.write (pt + 8 * ptIdx virt), .read (pt + 8 * ptIdx virt),
      .read (pd + 8 * pdIdx virt), .read (pdpt + 8 * pdptIdx virt), .read (root + 8 * pml4Idx virt)],
      OnPath root (pathOf virt) mem' acc := by
  have hpt' := hkeep _ _ (List.prefix_refl _) hpt
  simp only [List.forall_mem_cons]
  exact ⟨⟨pathToPt virt, _, _, List.prefix_refl _, hpt', rfl⟩,
    ⟨pathToPt virt, _, _, List.prefix_refl _, hpt', rfl⟩,
    ⟨_, _, _, by simp [pathOf], hkeep _ _ (by simp [pathToPt]) hpd, rfl⟩,
    ⟨_, _, _, by simp [pathOf], hkeep _ _ (by simp [pathToPt]) hpdpt, rfl⟩,
    ⟨[], _, _, by simp [pathOf], tableAt_nil mem' root, rfl⟩, by simp⟩

/-- On a mapped page `vmm_unmap` succeeds and clears the entry of that page. -/
theorem vmmUnmap_of_mapped (debug : Bool) {root virt pt : Nat} {s : Machine}
    (hvirt : isAligned virt pageSize = true) (htable : tableAt s.mem root (pathToPt virt) = some pt)
    (hmapped : tableEntry s.mem pt (ptIdx virt) ≠ 0) :
    ∃ l, vmmUnmap debug root virt s = .ok ((), { s with
        mem := storeLE s.mem (pt + 8 * ptIdx virt) 8 0
        log := l ++ s.log }) ∧
      ∀ mem', (∀ q t, q <+: pathToPt virt → tableAt s.mem root q = some t →
          tableAt mem' root q = some t) →
        ∀ acc ∈ l, OnPath root (pathOf virt) mem' acc := by
  obtain ⟨pdpt, pd, ⟨hpdpt, hne1, -, haddr1⟩, ⟨hpd, hne2, hpage2, haddr2⟩, hne3, hpage3, haddr3⟩ :=
    tableAt_pathToPt htable
  have hon := onPath_walk hpdpt hpd htable
  simp only [vmmUnmap, Ops.vmmUnmap, liftM_kernel, readEntry_bind, panicIf_bind_ok_iff, haddr1,
    haddr2, haddr3]
  cases debug with
  | false =>
    refine ⟨[.write (pt + 8 * ptIdx virt), .read (pd + 8 * pdIdx virt),
      .read (pdpt + 8 * pdptIdx virt), .read (root + 8 * pml4Idx virt)],
      ⟨by simp, hne1, hne2, by simp, hne3, by simp, rfl⟩, fun mem' hkeep acc hacc => ?_⟩
    exact hon mem' hkeep acc (((List.sublist_cons_self _ _).cons_cons _).subset hacc)
  | true =>
    refine ⟨[.write (pt + 8 * ptIdx virt), .read (pt + 8 * ptIdx virt), .read (pd + 8 * pdIdx virt),
      .read (pdpt + 8 * pdptIdx virt), .read (root + 8 * pml4Idx virt)],
      ⟨by simp [hvirt], hne1, hne2, by simp [hpage2], hne3, by simp [hpage3], ?_⟩, hon⟩
    simp only [if_true, readEntry_bind, panicIf_bind_ok_iff]
    exact ⟨hmapped, rfl⟩

/-! ## `vmm_free` -/

/-- No page the allocator knows is mapped at address zero by the direct map. -/
theorem physToVirt_ne_zero {phys : Nat} (hsmall : phys / pageSize < 2 ^ 32) :
    physToVirt phys ≠ 0 := by
  unfold physToVirt pmmHhdmStart pageSize at *
  omega

/-- On a mapped page `vmm_free` succeeds if the page allocator takes the frame
back; it clears the entry of that page. -/
theorem vmmFree_of_mapped (debug : Bool) {root virt pt : Nat} {s : Machine} {pmm' : Pmm}
    (hsmall : ∀ q t, q <+: pathToPt virt → tableAt s.mem root q = some t →
      t / pageSize < 2 ^ 32)
    (htable : tableAt s.mem root (pathToPt virt) = some pt)
    (hlinks : ∀ q j, q ++ [j] <+: pathToPt virt →
      entryAt s.mem root q j = 0 ∨ ∃ f, TableLink (entryAt s.mem root q j) f)
    (hpresent : tableEntry s.mem pt (ptIdx virt) &&& vmmFlagsPresent ≠ 0)
    (hfree : pmmFree debug s.pmm (tableEntry s.mem pt (ptIdx virt) &&& pteAddrMask) = .ok pmm') :
    ∃ l, vmmFree debug root virt s = .ok ((), {
        pmm := pmm'
        mem := storeLE s.mem (pt + 8 * ptIdx virt) 8 0
        log := .write (pt + 8 * ptIdx virt) ::
          .free (tableEntry s.mem pt (ptIdx virt) &&& pteAddrMask) :: (l ++ s.log) }) ∧
      ∀ mem', (∀ q t, q <+: pathToPt virt → tableAt s.mem root q = some t →
          tableAt mem' root q = some t) →
        ∀ acc ∈ l, OnPath root (pathOf virt) mem' acc := by
  obtain ⟨pdpt, pd, ⟨hpdpt, hne1, -, haddr1⟩, ⟨hpd, hne2, hpage2, haddr2⟩, -, hpage3, haddr3⟩ :=
    tableAt_pathToPt htable
  have hlinked {q : List (Fin 512)} {j : Fin 512} {t : Nat} (hpre : q ++ [j] <+: pathToPt virt)
      (ht : tableAt s.mem root q = some t) (hne : tableEntry s.mem t j ≠ 0) :
      tableEntry s.mem t j &&& vmmFlagsPresent ≠ 0 := by
    rw [← entryAt_of_tableAt ht] at hne ⊢
    rcases hlinks q j hpre with hzero | ⟨f, hlink⟩
    · exact absurd hzero hne
    · exact hlink.present
  have hpresent1 := hlinked (q := []) (by simp [pathToPt]) (tableAt_nil _ _) hne1
  have hpresent2 := hlinked (q := [pml4Idx virt]) (by simp [pathToPt]) hpdpt hne2
  have hguard1 := physToVirt_ne_zero (hsmall _ _ (by simp [pathToPt]) hpdpt)
  have hguard2 := physToVirt_ne_zero (hsmall _ _ (by simp [pathToPt]) hpd)
  have hguard3 := physToVirt_ne_zero (hsmall _ _ (List.prefix_refl _) htable)
  have hfreed (l : List Access) :
      freePage debug (tableEntry s.mem pt (ptIdx virt) &&& pteAddrMask) ⟨s.pmm, s.mem, l⟩ = .ok ((),
        ⟨pmm', s.mem, .free (tableEntry s.mem pt (ptIdx virt) &&& pteAddrMask) :: l⟩) :=
    freePage_ok_iff.mpr ⟨pmm', hfree, rfl⟩
  refine ⟨[.read (pt + 8 * ptIdx virt), .read (pd + 8 * pdIdx virt),
    .read (pdpt + 8 * pdptIdx virt), .read (root + 8 * pml4Idx virt)], ?_, ?_⟩
  · unfold vmmFree Ops.vmmFree
    simp only [liftM_kernel]
    rw [readEntry_bind, haddr1, panicIf_bind_ok_iff, readEntry_bind]
    refine ⟨by simp [hguard1, hpresent1], ?_⟩
    simp only [hpage2, ne_eq, not_true_eq_false, if_false]
    rw [haddr2, panicIf_bind_ok_iff, readEntry_bind]
    refine ⟨by simp [hguard2, hpresent2], ?_⟩
    simp only [hpage3, not_true_eq_false, if_false]
    rw [haddr3, readEntry_bind, panicIf_bind_ok_iff, bind_eq_of_ok (hfreed _)]
    exact ⟨by simp [hguard3, hpresent], rfl⟩
  · intro mem' hkeep acc hacc
    exact onPath_walk hpdpt hpd htable mem' hkeep acc (List.mem_cons_of_mem _ hacc)

end Pristine.Kernel
