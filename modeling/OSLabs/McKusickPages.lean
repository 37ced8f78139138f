/-
# The free-page list of the McKusick–Karels allocator

Specifications of `insert_sorted` and `find_consecutive_pages` over the sorted
list of free page indices.  Both change only the links of free pages; the second
also sets the flags of the pages it takes.
-/
import OSLabs.LinkedChain
import OSLabs.McKusickSizes

namespace McKusick

/-! ## Links and data of the metadata -/

/-- The link function of the metadata array. -/
def links (info : ℕ → PageInfo) : ℕ → Option ℕ := fun i => (info i).next

@[simp] theorem links_apply (info : ℕ → PageInfo) (i : ℕ) : links info i = (info i).next := rfl

/-- Everything a page record holds besides its link. -/
def PageInfo.data (p : PageInfo) : ℕ × ℕ × Bool := (p.pageAddr, p.size, p.isStartOfBuffer)

/-- A record is its link and its data. -/
theorem PageInfo.eq_of_data {p q : PageInfo} (hn : p.next = q.next) (hd : p.data = q.data) :
    p = q := by
  cases p
  cases q
  simp_all [PageInfo.data]

@[simp] theorem links_setNext (info : ℕ → PageInfo) (i : ℕ) (v : Option ℕ) :
    links (setNext info i v) = Function.update (links info) i v := by
  funext j
  by_cases hj : j = i
  · subst hj
    simp [setNext]
  · simp [setNext, hj]

@[simp] theorem data_setNext (info : ℕ → PageInfo) (i j : ℕ) (v : Option ℕ) :
    (setNext info i v j).data = (info j).data := by
  by_cases hj : j = i
  · subst hj
    simp [setNext, PageInfo.data]
  · simp [setNext, hj]

theorem setNext_of_ne {info : ℕ → PageInfo} {i j : ℕ} (v : Option ℕ) (hj : j ≠ i) :
    setNext info i v j = info j :=
  Function.update_of_ne hj _ _

/-- Equal data means equal addresses. -/
theorem pageAddr_eq_of_data {p q : PageInfo} (h : p.data = q.data) : p.pageAddr = q.pageAddr :=
  congrArg Prod.fst h

namespace McKusickAllocator

/-! ## The free-page list -/

/-- The state with another metadata array and another head of the free-page list. -/
def setPages (s : McKusickAllocator) (info : ℕ → PageInfo) (head : Option ℕ) :
    McKusickAllocator :=
  { s with info := info, freePageInfo := head }

section SetPages

variable (s : McKusickAllocator) (info : ℕ → PageInfo) (head : Option ℕ)

@[simp] theorem setPages_info : (s.setPages info head).info = info := rfl

@[simp] theorem setPages_freePageInfo : (s.setPages info head).freePageInfo = head := rfl

@[simp] theorem setPages_mem : (s.setPages info head).mem = s.mem := rfl

@[simp] theorem setPages_freelistarr : (s.setPages info head).freelistarr = s.freelistarr := rfl

@[simp] theorem setPages_initialMemory :
    (s.setPages info head).initialMemory = s.initialMemory := rfl

@[simp] theorem setPages_totalPages : (s.setPages info head).totalPages = s.totalPages := rfl

@[simp] theorem setPages_setPages (info' : ℕ → PageInfo) (head' : Option ℕ) :
    (s.setPages info head).setPages info' head' = s.setPages info' head' := rfl

end SetPages

/-- The address of page `i`. -/
def pageAt (s : McKusickAllocator) (i : ℕ) : ℕ := s.initialMemory + 4096 * i

/-- Page `i` starts at `initial_memory + i * PAGE_SIZE`, for all `n` pages, and the
pages do not wrap around the address space. -/
structure Layout (s : McKusickAllocator) (n : ℕ) : Prop where
  addr : ∀ i < n, (s.info i).pageAddr = s.pageAt i
  ne_null : 0 < s.initialMemory
  no_wrap : s.pageAt n ≤ 2 ^ 64
  fuel : n ≤ s.totalPages

/-- `free_page_info` is the list `free` of page indices below `n`, in ascending order. -/
structure FreeList (s : McKusickAllocator) (n : ℕ) (free : List ℕ) : Prop where
  chain : Linked (links s.info) s.freePageInfo free none
  sorted : free.Pairwise (· < ·)
  bound : ∀ i ∈ free, i < n

/-- Addresses are compared as indices are. -/
theorem Layout.addr_lt_iff {s : McKusickAllocator} {n i j : ℕ} (hL : s.Layout n) (hi : i < n)
    (hj : j < n) : (s.info i).pageAddr < (s.info j).pageAddr ↔ i < j := by
  rw [hL.addr i hi, hL.addr j hj]
  simp only [pageAt]
  omega

/-- A layout only depends on the addresses of the pages. -/
theorem Layout.congr {s s' : McKusickAllocator} {n : ℕ} (hL : s.Layout n)
    (hdata : ∀ i, (s'.info i).pageAddr = (s.info i).pageAddr)
    (hmem : s'.initialMemory = s.initialMemory) (htot : s'.totalPages = s.totalPages) :
    s'.Layout n := by
  refine ⟨fun i hi => ?_, ?_, ?_, ?_⟩
  · rw [hdata i, hL.addr i hi, pageAt, pageAt, hmem]
  · rw [hmem]
    exact hL.ne_null
  · rw [pageAt, hmem]
    exact hL.no_wrap
  · rw [htot]
    exact hL.fuel

/-- A strictly ascending list of numbers below `n` has at most `n` members. -/
theorem FreeList.length_le {s : McKusickAllocator} {n : ℕ} {free : List ℕ}
    (hF : s.FreeList n free) : free.length ≤ n := by
  have hnd : free.Nodup := hF.chain.nodup
  have hsub : free.toFinset ⊆ Finset.range n := by
    intro i hi
    rw [List.mem_toFinset] at hi
    exact Finset.mem_range.mpr (hF.bound i hi)
  calc free.length = free.toFinset.card := (List.toFinset_card_of_nodup hnd).symm
    _ ≤ (Finset.range n).card := Finset.card_le_card hsub
    _ = n := Finset.card_range n

/-! ## `insert_sorted` -/

/-- A number between the two parts of an ascending list can be put between them. -/
theorem pairwise_lt_insert {l₁ l₂ : List ℕ} {m : ℕ} (h : (l₁ ++ l₂).Pairwise (· < ·))
    (hlow : ∀ i ∈ l₁, i < m) (hhigh : ∀ i ∈ l₂, m < i) :
    (l₁ ++ m :: l₂).Pairwise (· < ·) := by
  obtain ⟨h₁, h₂, hcross⟩ := List.pairwise_append.mp h
  refine List.pairwise_append.mpr ⟨h₁, List.pairwise_cons.mpr ⟨hhigh, h₂⟩, fun i hi j hj => ?_⟩
  rcases List.mem_cons.mp hj with rfl | hj
  · exact hlow i hi
  · exact hcross i hi j hj

/-- The walk of `insert_sorted` stops between the pages below `page` and those above. -/
theorem insertWalk_spec {s : McKusickAllocator} {n page : ℕ} (hL : s.Layout n) (hpage : page < n)
    {fuel current : ℕ} {rest : List ℕ} (hfuel : rest.length < fuel)
    (hchain : Linked (links s.info) (links s.info current) rest none)
    (hsorted : (current :: rest).Pairwise (· < ·)) (hbound : ∀ i ∈ current :: rest, i < n)
    (hcur : current < page) (hnot : page ∉ rest) :
    ∃ l₁ c l₂, current :: rest = l₁ ++ c :: l₂ ∧
      insertWalk s.info page fuel current = some c ∧
      (∀ i ∈ l₁ ++ [c], i < page) ∧ ∀ i ∈ l₂, page < i := by
  induction rest generalizing fuel current with
  | nil =>
      cases fuel with
      | zero => simp at hfuel
      | succ fuel =>
          have hnext : (s.info current).next = none := hchain
          refine ⟨[], current, [], rfl, ?_, by simpa using hcur, by simp⟩
          rw [insertWalk, hnext]
  | cons m rest ih =>
      cases fuel with
      | zero => simp at hfuel
      | succ fuel =>
          obtain ⟨hnext, hrest⟩ := hchain
          rw [links_apply] at hnext
          have hm : m < n := hbound m (by simp)
          have hm' : m ≠ page := fun h => hnot (by simp [h])
          rw [insertWalk, hnext]
          simp only [hL.addr_lt_iff hm hpage]
          -- The walk goes on while the next page is below the new one.
          by_cases hlt : m < page
          · rw [if_pos hlt]
            obtain ⟨l₁, c, l₂, heq, hwalk, hlow, hhigh⟩ :=
              ih (by simpa using hfuel) hrest (List.pairwise_cons.mp hsorted).2
                (fun i hi => hbound i (List.mem_cons_of_mem _ hi)) hlt
                (fun h => hnot (List.mem_cons_of_mem _ h))
            refine ⟨current :: l₁, c, l₂, by rw [heq]; rfl, hwalk, ?_, hhigh⟩
            intro i hi
            rcases List.mem_cons.mp hi with rfl | hi
            · exact hcur
            · exact hlow i hi
          · rw [if_neg hlt]
            refine ⟨[], current, m :: rest, rfl, rfl, by simpa using hcur, ?_⟩
            intro i hi
            rcases List.mem_cons.mp hi with rfl | hi
            · omega
            · have := (List.pairwise_cons.mp (List.pairwise_cons.mp hsorted).2).1 i hi
              omega

/-- **`insert_sorted` returns, and puts the page into the ascending list.**  Only links
of listed pages change. -/
theorem insertSorted_spec {s : McKusickAllocator} {n page : ℕ} {free : List ℕ} (hL : s.Layout n)
    (hF : s.FreeList n free) (hpage : page < n) (hnot : page ∉ free) :
    ∃ info head free', s.insertSorted page = some (s.setPages info head) ∧
      (s.setPages info head).FreeList n free' ∧
      free'.Perm (page :: free) ∧ (∀ i, (info i).data = (s.info i).data) ∧
      ∀ i, i ∉ page :: free → info i = s.info i := by
  have hbound : ∀ i ∈ page :: free, i < n := by
    intro i hi
    rcases List.mem_cons.mp hi with rfl | hi
    · exact hpage
    · exact hF.bound i hi
  cases free with
  | nil =>
      have hhead : s.freePageInfo = none := hF.chain
      refine ⟨setNext s.info page none, some page, [page], by rw [insertSorted, hhead]; rfl, ⟨?_, by simp, hbound⟩, .refl _,
        by simp, fun i hi => setNext_of_ne _ (by simpa using hi)⟩
      rw [setPages_info, setPages_freePageInfo, links_setNext]
      exact ⟨rfl, Function.update_self _ _ _⟩
  | cons f rest =>
      have hhead : s.freePageInfo = some f := hF.chain.1
      have hf : f < n := hF.bound f (by simp)
      rw [insertSorted, hhead]
      simp only [hL.addr_lt_iff hpage hf]
      -- The page becomes the head, or goes behind the page where the walk stops.
      by_cases hlt : page < f
      · rw [if_pos hlt]
        refine ⟨_, _, page :: f :: rest, rfl, ⟨?_, ?_, hbound⟩, .refl _, by simp,
          fun i hi => setNext_of_ne _ (fun h => hi (by simp [h]))⟩
        · rw [setPages_info, setPages_freePageInfo, links_setNext, ← hhead]
          exact hF.chain.push hnot
        · refine List.pairwise_cons.mpr ⟨fun i hi => ?_, hF.sorted⟩
          rcases List.mem_cons.mp hi with rfl | hi
          · exact hlt
          · exact hlt.trans ((List.pairwise_cons.mp hF.sorted).1 i hi)
      · rw [if_neg hlt]
        have hne : f ≠ page := fun h => hnot (by simp [h])
        have hlen := hF.length_le
        have hfuel := hL.fuel
        obtain ⟨l₁, c, l₂, heq, hwalk, hlow, hhigh⟩ :=
          insertWalk_spec hL hpage
            (show rest.length < s.totalPages by rw [List.length_cons] at hlen; omega)
            hF.chain.2 hF.sorted hF.bound (by omega) (fun h => hnot (List.mem_cons_of_mem _ h))
        have hsorted := hF.sorted
        have hchain := hF.chain
        rw [heq] at hsorted hchain hnot hbound ⊢
        have hperm : (l₁ ++ c :: page :: l₂).Perm (page :: (l₁ ++ c :: l₂)) := by
          rw [List.append_cons, List.append_cons l₁ c l₂]
          exact List.perm_middle
        refine ⟨_, _, l₁ ++ c :: page :: l₂, by rw [hwalk]; rfl, ⟨?_, ?_, ?_⟩, hperm, by simp, ?_⟩
        · rw [setPages_info, setPages_freePageInfo, links_setNext, links_setNext, ← links_apply,
            ← hhead]
          exact hchain.insert_after hnot
        · rw [List.append_cons]
          exact pairwise_lt_insert (by rwa [← List.append_cons]) hlow hhigh
        · intro i hi
          exact hbound i (hperm.mem_iff.mp hi)
        · intro i hi
          have hip : i ≠ page := fun h => hi (by simp [h])
          have hic : i ≠ c := fun h => hi (by simp [h])
          rw [setNext_of_ne _ hic, setNext_of_ne _ hip]

/-! ## `find_consecutive_pages` -/

/-- The expected address of the inner loop is the address of the next page index. -/
theorem Layout.addr_eq_expected_iff {s : McKusickAllocator} {n start found m : ℕ}
    (hL : s.Layout n) (hstart : start < n) (hle : start + found ≤ n) (hm : m < n) :
    (s.info m).pageAddr = ((s.info start).pageAddr + found * pageSize) % wordSize ↔
      m = start + found := by
  have hpos := hL.ne_null
  have hwrap := hL.no_wrap
  rw [hL.addr m hm, hL.addr start hstart]
  simp only [pageAt, pageSize, wordSize] at *
  omega

/-- The inner loop of `find_consecutive_pages` returns the longest run from its start, up
to `k` pages: the next index after a shorter run is not listed. -/
theorem extendRun_spec {s : McKusickAllocator} {n start k : ℕ} (hL : s.Layout n)
    (hstart : start < n) {fuel walker found : ℕ} {rest : List ℕ} (hfuel : rest.length < fuel)
    (hwalker : walker + 1 = start + found) (hfound : found ≤ k)
    (hchain : Linked (links s.info) (links s.info walker) rest none)
    (hsorted : (walker :: rest).Pairwise (· < ·)) (hbound : ∀ i ∈ walker :: rest, i < n) :
    ∃ found' last rest', extendRun s.info start k fuel walker found = some (last, found') ∧
      found ≤ found' ∧ found' ≤ k ∧ last + 1 = start + found' ∧
      rest = List.range' (walker + 1) (found' - found) ++ rest' ∧
      Linked (links s.info) (links s.info last) rest' none ∧
      (found' < k → start + found' ∉ rest) := by
  induction rest generalizing fuel walker found with
  | nil =>
      cases fuel with
      | zero => simp at hfuel
      | succ fuel =>
          have hnext : (s.info walker).next = none := hchain
          refine ⟨found, walker, [], ?_, le_rfl, hfound, hwalker, by simp, hchain, by simp⟩
          rw [extendRun, hnext]
          simp
  | cons m rest ih =>
      cases fuel with
      | zero => simp at hfuel
      | succ fuel =>
          have hnext : (s.info walker).next = some m := hchain.1
          have hw : walker < n := hbound walker (by simp)
          have hm : m < n := hbound m (by simp)
          have hwm : walker < m := (List.pairwise_cons.mp hsorted).1 m (by simp)
          have hsorted' := (List.pairwise_cons.mp hsorted).2
          rw [extendRun, hnext]
          simp only [ne_eq, hL.addr_eq_expected_iff hstart (by omega : start + found ≤ n) hm]
          by_cases hk : found < k
          · rw [if_pos hk]
            by_cases hm' : m = start + found
            · -- the run goes on
              rw [if_neg (not_not.mpr hm')]
              obtain ⟨found', last, rest', heq, h₁, h₂, hlast, hrest, hchain', hstop⟩ :=
                ih (Nat.lt_of_succ_lt_succ hfuel) (show m + 1 = start + (found + 1) by omega)
                  (by omega) hchain.2 hsorted' (fun i hi => hbound i (List.mem_cons_of_mem _ hi))
              refine ⟨found', last, rest', heq, by omega, h₂, hlast, ?_, hchain', fun hlt hmem => ?_⟩
              · rw [show found' - found = (found' - (found + 1)) + 1 by omega, List.range'_succ,
                  List.cons_append, show walker + 1 = m by omega, ← hrest]
              · rcases List.mem_cons.mp hmem with h | h
                · omega
                · exact hstop hlt h
            · rw [if_pos hm']
              refine ⟨found, walker, m :: rest, rfl, le_rfl, hfound, hwalker, by simp, hchain,
                fun _ hmem => ?_⟩
              rcases List.mem_cons.mp hmem with h | h
              · omega
              · have := (List.pairwise_cons.mp hsorted').1 _ h
                omega
          · rw [if_neg hk]
            exact ⟨found, walker, m :: rest, rfl, le_rfl, hfound, hwalker, by simp, hchain,
              fun h => absurd h hk⟩

/-- The outer loop of `find_consecutive_pages` stops at the first listed page from which
`k` consecutive pages are listed, or runs through the whole list. -/
theorem searchRun_spec {s : McKusickAllocator} {n k : ℕ} (hL : s.Layout n) (hk : 1 ≤ k)
    {fuel : ℕ} {current prev : Option ℕ} {suf : List ℕ} (hfuel : suf.length ≤ fuel)
    (hlen : suf.length ≤ n) (hchain : Linked (links s.info) current suf none)
    (hsorted : suf.Pairwise (· < ·)) (hbound : ∀ i ∈ suf, i < n) :
    (searchRun s.info k s.totalPages fuel current prev = some none ∧
      ∀ g ∈ suf, ∃ j < k, g + j ∉ suf) ∨
    ∃ mid start last post, suf = mid ++ (List.range' start k ++ post) ∧
      searchRun s.info k s.totalPages fuel current prev
        = some (some ⟨mid.getLast?.or prev, start, last⟩) ∧
      last + 1 = start + k ∧ Linked (links s.info) (links s.info last) post none ∧
      ∀ g ∈ mid, ∃ j < k, g + j ∉ suf := by
  induction suf generalizing fuel current prev with
  | nil =>
      rw [Linked.nil_iff] at hchain
      subst hchain
      refine Or.inl ⟨?_, by simp⟩
      cases fuel <;> rfl
  | cons a rest ih =>
      cases fuel with
      | zero => simp at hfuel
      | succ fuel =>
          obtain ⟨rfl, hrest⟩ := hchain
          have ha : a < n := hbound a (by simp)
          have hfuel' := hL.fuel
          rw [List.length_cons] at hlen
          obtain ⟨found, last, rest', heq, h₁, h₂, hlast, hsplit, hchain', hstop⟩ :=
            extendRun_spec hL ha (show rest.length < s.totalPages by omega)
              (show a + 1 = a + 1 from rfl) hk hrest hsorted hbound
          have hsorted' := List.pairwise_cons.mp hsorted
          simp only [searchRun, heq, Option.bind_eq_bind, Option.bind_some]
          -- Either the run that begins at `a` is long enough, or the search goes on behind `a`.
          by_cases hfound : found = k
          · right
            rw [if_pos hfound]
            subst hfound
            refine ⟨[], a, last, rest', ?_, by simp, hlast, hchain', by simp⟩
            rw [hsplit, List.nil_append, show found = (found - 1) + 1 by omega,
              List.range'_succ, Nat.add_sub_cancel]
            rfl
          · rw [if_neg hfound]
            have hfirst : ∃ j < k, a + j ∉ a :: rest := by
              refine ⟨found, by omega, fun hmem => ?_⟩
              rcases List.mem_cons.mp hmem with h | h
              · omega
              · exact hstop (by omega) h
            -- A run that begins behind `a` cannot use `a`, so nothing is missed there.
            have hlift : ∀ g ∈ rest, (∃ j < k, g + j ∉ rest) → ∃ j < k, g + j ∉ a :: rest := by
              rintro g hg ⟨j, hj, hnot⟩
              have := hsorted'.1 g hg
              refine ⟨j, hj, fun hmem => ?_⟩
              rcases List.mem_cons.mp hmem with h | h
              · omega
              · exact hnot h
            rcases @ih fuel _ (some a) (by simpa using hfuel) (by omega) hrest
                hsorted'.2 (fun i hi => hbound i (List.mem_cons_of_mem _ hi)) with
              ⟨hnone, hno⟩ | ⟨mid, start, last', post, hmid, hsome, hlast', hpost, hno⟩
            · refine Or.inl ⟨hnone, fun g hg => ?_⟩
              rcases List.mem_cons.mp hg with rfl | hg
              · exact hfirst
              · exact hlift g hg (hno g hg)
            · refine Or.inr ⟨a :: mid, start, last', post, by rw [hmid]; rfl, ?_, hlast', hpost,
                fun g hg => ?_⟩
              · have hprev : mid.getLast?.or (some a) = (a :: mid).getLast?.or prev := by
                  rw [List.getLast?_cons]
                  cases mid.getLast? <;> rfl
                rw [links_apply] at hsome
                rw [hsome, hprev]
              · rcases List.mem_cons.mp hg with rfl | hg
                · exact hfirst
                · exact hlift g (by rw [hmid]; simp [hg]) (hno g hg)

/-- The `for` loop of `find_consecutive_pages` rewrites the flags and links of the pages
it passes, and no other record. -/
theorem linkRun_spec (m i walker : ℕ) (info : ℕ → PageInfo) :
    linkRun m i walker info = (walker + m, fun j =>
      if walker ≤ j ∧ j < walker + m then
        { info j with isStartOfBuffer := decide (i + (j - walker) = 0), next := some (j + 1) }
      else info j) := by
  induction m generalizing i walker info with
  | zero =>
      rw [linkRun]
      refine Prod.ext rfl ?_
      funext j
      exact (if_neg (by omega)).symm
  | succ m ih =>
      rw [linkRun, ih]
      refine Prod.ext (by simp only; omega) ?_
      funext j
      by_cases hj : j = walker
      · subst hj
        simp
      · by_cases hin : walker + 1 ≤ j ∧ j < walker + 1 + m
        · simp only [if_pos hin, if_pos (by omega : walker ≤ j ∧ j < walker + (m + 1)),
            Function.update_of_ne hj]
          rw [show i + 1 + (j - (walker + 1)) = i + (j - walker) by omega]
        · simp only [if_neg hin, if_neg (by omega : ¬ (walker ≤ j ∧ j < walker + (m + 1))),
            Function.update_of_ne hj]

/-- The records after a run of `k` pages from `start` has been linked up and flagged. -/
def markRun (start k : ℕ) (info : ℕ → PageInfo) : ℕ → PageInfo := fun j =>
  if start ≤ j ∧ j < start + k then
    { info j with
      isStartOfBuffer := decide (j = start)
      next := if j + 1 = start + k then none else some (j + 1) }
  else info j

/-- The `for` loop and the two assignments after it mark the run. -/
theorem linkRun_update_eq_markRun {k : ℕ} (hk : 2 ≤ k) (start : ℕ) (info : ℕ → PageInfo) :
    Function.update (linkRun (k - 1) 0 start info).2 (linkRun (k - 1) 0 start info).1
      { (linkRun (k - 1) 0 start info).2 (linkRun (k - 1) 0 start info).1 with
        next := none, isStartOfBuffer := false } = markRun start k info := by
  funext j
  rw [linkRun_spec]
  by_cases hj : j = start + (k - 1)
  · subst hj
    rw [Function.update_self, markRun, if_pos (by omega), if_pos (by omega),
      decide_eq_false (by omega)]
    simp only [if_neg (by omega : ¬ (start ≤ start + (k - 1) ∧ start + (k - 1) < start + (k - 1)))]
  · rw [Function.update_of_ne hj, markRun]
    by_cases hin : start ≤ j ∧ j < start + (k - 1)
    · simp only [if_pos hin, if_pos (by omega : start ≤ j ∧ j < start + k),
        if_neg (by omega : ¬ j + 1 = start + k)]
      rw [decide_eq_decide.mpr (by omega : 0 + (j - start) = 0 ↔ j = start)]
    · simp only [if_neg hin, if_neg (by omega : ¬ (start ≤ j ∧ j < start + k))]

theorem markRun_of_notMem {start k j : ℕ} (info : ℕ → PageInfo)
    (hj : j ∉ List.range' start k) : markRun start k info j = info j := by
  rw [List.mem_range'_1] at hj
  rw [markRun, if_neg hj]

/-- **`find_consecutive_pages` returns, and is a complete first-fit search.**  It finds
nothing when no `k` consecutive pages are listed; otherwise it takes the first such run
out of the list, flags its first page alone, and changes nothing but links elsewhere. -/
theorem findConsecutivePages_spec {s : McKusickAllocator} {n k : ℕ} {free : List ℕ}
    (hL : s.Layout n) (hF : s.FreeList n free) (hk : 2 ≤ k) :
    (s.findConsecutivePages k = some (none, s) ∧ ∀ g ∈ free, ∃ j < k, g + j ∉ free) ∨
    ∃ pre start post info head, free = pre ++ (List.range' start k ++ post) ∧
      s.findConsecutivePages k
        = some (some start, s.setPages info head) ∧
      (∀ g ∈ pre, ∃ j < k, g + j ∉ free) ∧
      (s.setPages info head).FreeList n (pre ++ post) ∧
      (∀ i, i ∉ free → info i = s.info i) ∧
      (∀ i, start ≤ i → i < start + k →
        (info i).data = ((s.info i).pageAddr, (s.info i).size, decide (i = start))) ∧
      ∀ i, ¬ (start ≤ i ∧ i < start + k) → (info i).data = (s.info i).data := by
  have hfuel := hL.fuel
  have hlen := hF.length_le
  rcases @searchRun_spec s n k hL (by omega) s.totalPages _ none _
      (by omega) hlen hF.chain hF.sorted hF.bound with
    ⟨hnone, hno⟩ | ⟨pre, start, last, post, hfree, hsome, hlast, hpost, hno⟩
  · refine Or.inl ⟨?_, hno⟩
    rw [findConsecutivePages, if_neg (by omega), hnone]
    rfl
  · right
    have hlastk : (s.info last).next = links s.info last := rfl
    have hsub : (pre ++ post).Sublist free := by
      rw [hfree]
      exact (List.Sublist.refl pre).append (List.sublist_append_right _ _)
    have hnd : free.Nodup := hF.chain.nodup
    have hrun : ∀ i ∈ pre ++ post, i ∉ List.range' start k := by
      rw [hfree] at hnd
      intro i hi hir
      have hdisj := List.nodup_append.mp hnd
      rcases List.mem_append.mp hi with hi | hi
      · exact hdisj.2.2 i hi i (List.mem_append_left _ hir) rfl
      · exact (List.nodup_append.mp hdisj.2.1).2.2 i hir i hi rfl
    rw [findConsecutivePages, if_neg (by omega), hsome]
    simp only [Option.bind_eq_bind, Option.bind_some, linkRun_update_eq_markRun hk, Option.or_none]
    -- The run is the head of the list, or the page in front of it is linked past it.
    cases pre using List.reverseRecOn with
    | nil =>
        refine ⟨[], start, post, _, _, hfree, rfl, hno, ⟨?_, ?_, ?_⟩, ?_, ?_, ?_⟩
        · apply hpost.congr
          intro i hi
          simp only [links_apply, List.getLast?_nil, setPages_info]
          rw [markRun_of_notMem _ (hrun i (by simpa using hi))]
        · exact hF.sorted.sublist hsub
        · exact fun i hi => hF.bound i (hsub.subset hi)
        · intro i hi
          refine markRun_of_notMem _ fun hir => hi ?_
          rw [hfree]
          exact List.mem_append_right _ (List.mem_append_left _ hir)
        · intro i h₁ h₂
          simp [markRun, h₁, h₂, PageInfo.data]
        · intro i hi
          rw [markRun_of_notMem _ (by rwa [List.mem_range'_1])]
          rfl
    | append_singleton pre p _ =>
        have hp : p ∈ free := hsub.subset (by simp)
        have hcut := hF.chain
        rw [hfree, ← List.append_cons] at hcut
        refine ⟨pre ++ [p], start, post, _, _, hfree, rfl, hno, ⟨?_, ?_, ?_⟩, ?_, ?_, ?_⟩
        · simp only [List.getLast?_append, List.getLast?_singleton, Option.some_or]
          rw [← List.append_cons]
          apply (hcut.cut_after hpost).congr
          intro i hi
          rw [setPages_info, links_apply, markRun_of_notMem _ (hrun i (by simpa using hi)),
            ← links_apply, links_setNext, hlastk]
        · exact hF.sorted.sublist hsub
        · exact fun i hi => hF.bound i (hsub.subset hi)
        · intro i hi
          have hip : i ≠ p := fun h => hi (h ▸ hp)
          simp only [List.getLast?_append, List.getLast?_singleton, Option.some_or]
          rw [markRun_of_notMem, setNext_of_ne _ hip]
          intro hir
          apply hi
          rw [hfree]
          exact List.mem_append_right _ (List.mem_append_left _ hir)
        · intro i h₁ h₂
          have hdata := data_setNext s.info p i (s.info last).next
          simp only [PageInfo.data, Prod.mk.injEq] at hdata
          simp [markRun, h₁, h₂, PageInfo.data, hdata]
        · intro i hi
          simp only [List.getLast?_append, List.getLast?_singleton, Option.some_or]
          rw [markRun_of_notMem _ (by rwa [List.mem_range'_1]), data_setNext]

/-! ## Releasing a buffer -/

/-- **The loop of `free` over a large buffer returns**, puts its pages into the free list
and clears their size and flag.  Only links change elsewhere. -/
theorem releasePages_spec {s : McKusickAllocator} {n k f : ℕ} {free : List ℕ} (hL : s.Layout n)
    (hF : s.FreeList n free) (hle : f + k ≤ n) (hnot : ∀ i ∈ List.range' f k, i ∉ free) :
    ∃ info head free',
      releasePages k f s = some (s.setPages info head) ∧
      (s.setPages info head).FreeList n free' ∧
      free'.Perm (List.range' f k ++ free) ∧
      (∀ i ∈ List.range' f k, (info i).data = ((s.info i).pageAddr, 0, false)) ∧
      (∀ i, i ∉ List.range' f k → (info i).data = (s.info i).data) ∧
      ∀ i, i ∉ List.range' f k ++ free → info i = s.info i := by
  induction k generalizing s f free with
  | zero =>
      exact ⟨s.info, s.freePageInfo, free, rfl, hF, .refl _, by simp, fun _ _ => rfl,
        fun _ _ => rfl⟩
  | succ k ih =>
      have hsplit : List.range' f (k + 1) = f :: List.range' (f + 1) k := List.range'_succ
      have hf : f ∉ free := hnot f (by simp [List.mem_range'_1])
      -- the record of page `f` is cleared, then the page is inserted
      set cleared : ℕ → PageInfo := Function.update s.info f
        { s.info f with size := 0, isStartOfBuffer := false } with hcleared
      have haddr : ∀ i, (cleared i).pageAddr = (s.info i).pageAddr := by
        intro i
        by_cases hi : i = f
        · subst hi
          simp [hcleared]
        · simp [hcleared, hi]
      have hlinks : links cleared = links s.info := by
        funext i
        by_cases hi : i = f
        · subst hi
          simp [hcleared]
        · simp [hcleared, hi]
      have hL₁ : (s.setPages cleared s.freePageInfo).Layout n := hL.congr haddr rfl rfl
      have hF₁ : (s.setPages cleared s.freePageInfo).FreeList n free :=
        ⟨by rw [setPages_info, hlinks]; exact hF.chain, hF.sorted, hF.bound⟩
      obtain ⟨info₂, head₂, free₂, heq₂, hF₂, hperm₂, hdata₂, hsame₂⟩ :=
        insertSorted_spec hL₁ hF₁ (by omega : f < n) hf
      have hL₂ : (s.setPages info₂ head₂).Layout n :=
        hL₁.congr (fun i => pageAddr_eq_of_data (hdata₂ i)) rfl rfl
      have hnot₂ : ∀ i ∈ List.range' (f + 1) k, i ∉ free₂ := by
        intro i hi hmem
        rw [hperm₂.mem_iff, List.mem_cons] at hmem
        rcases hmem with rfl | hmem
        · simp [List.mem_range'_1] at hi
        · exact hnot i (by rw [hsplit]; exact List.mem_cons_of_mem _ hi) hmem
      obtain ⟨info', head', free', heq', hF', hperm', hrun', hdata', hsame'⟩ :=
        ih hL₂ hF₂ (by omega) hnot₂
      have hfrest : f ∉ List.range' (f + 1) k := by simp [List.mem_range'_1]
      refine ⟨info', head', free', ?_, hF', ?_, ?_, ?_, ?_⟩
      · change (insertSorted (s.setPages cleared s.freePageInfo) f).bind _ = _
        rw [heq₂]
        exact heq'
      · have hmid : (List.range' (f + 1) k ++ f :: free).Perm (f :: List.range' (f + 1) k ++ free) :=
          List.perm_middle
        rw [hsplit]
        exact (hperm'.trans (hperm₂.append_left _)).trans hmid
      · intro i hi
        rw [hsplit] at hi
        rcases List.mem_cons.mp hi with rfl | hi
        · rw [hdata' i hfrest, setPages_info, hdata₂ i]
          simp [hcleared, PageInfo.data]
        · rw [hrun' i hi, setPages_info, pageAddr_eq_of_data (hdata₂ i), setPages_info, haddr i]
      · intro i hi
        rw [hsplit, List.mem_cons, not_or] at hi
        rw [hdata' i hi.2, setPages_info, hdata₂ i, setPages_info, hcleared,
          Function.update_of_ne hi.1]
      · intro i hi
        rw [hsplit, List.cons_append, List.mem_cons, List.mem_append, not_or, not_or] at hi
        have hi₂ : i ∉ f :: free := by
          rw [List.mem_cons, not_or]
          exact ⟨hi.1, hi.2.2⟩
        rw [hsame' i (by
            rw [List.mem_append, hperm₂.mem_iff, not_or]
            exact ⟨hi.2.1, hi₂⟩),
          setPages_info, hsame₂ i hi₂, setPages_info, hcleared, Function.update_of_ne hi.1]

/-! ## A state is determined by its free list and its page data -/

/-- Two states with the same free pages, page data and other fields are equal. -/
theorem eq_of_freeList {s s' : McKusickAllocator} {n : ℕ} {free free' : List ℕ}
    (hF : s.FreeList n free) (hF' : s'.FreeList n free') (hperm : free.Perm free')
    (hdata : ∀ i, (s.info i).data = (s'.info i).data)
    (hsame : ∀ i, i ∉ free → s.info i = s'.info i)
    (hrest : s' = s.setPages s'.info s'.freePageInfo) : s = s' := by
  have hfree : free = free' := hperm.eq_of_pairwise
    (fun i j _ _ hij hji => absurd (hij.trans hji) (lt_irrefl i)) hF.sorted hF'.sorted
  subst hfree
  have hhead : s.freePageInfo = s'.freePageInfo := by
    rw [hF.chain.start_eq_head?, hF'.chain.start_eq_head?]
  have hinfo : s.info = s'.info := by
    funext i
    by_cases hi : i ∈ free
    · exact PageInfo.eq_of_data (hF.chain.links_eq hF'.chain i hi) (hdata i)
    · exact hsame i hi
  rw [hrest, ← hinfo, ← hhead]
  rfl

/-! ## Pages do not depend on bytes -/

/-- The same allocator over other bytes. -/
abbrev withMem (s : McKusickAllocator) (m : Memory) : McKusickAllocator := { s with mem := m }

section WithMem

variable {s s' : McKusickAllocator} (m : Memory)

theorem insertSorted_withMem (page : ℕ) (h : s.insertSorted page = some s') :
    (s.withMem m).insertSorted page = some (s'.withMem m) := by
  obtain ⟨arr, head, initial, metadata, total, totalMeta, info, mem⟩ := s
  cases head with
  | none =>
    cases h
    rfl
  | some f =>
    unfold insertSorted at h ⊢
    dsimp only [withMem] at h ⊢
    by_cases hlt : (info page).pageAddr < (info f).pageAddr
    · rw [if_pos hlt] at h ⊢
      cases h
      rfl
    · rw [if_neg hlt] at h ⊢
      obtain ⟨current, hwalk, h⟩ := Option.bind_eq_some_iff.mp h
      cases h
      exact Option.bind_eq_some_iff.mpr ⟨current, hwalk, rfl⟩

theorem releasePages_withMem {n page : ℕ} (h : s.releasePages n page = some s') :
    (s.withMem m).releasePages n page = some (s'.withMem m) := by
  induction n generalizing s page with
  | zero =>
    cases h
    rfl
  | succ n ih =>
    obtain ⟨t, hinsert, hrest⟩ := Option.bind_eq_some_iff.mp h
    exact Option.bind_eq_some_iff.mpr ⟨t.withMem m, insertSorted_withMem m page hinsert, ih hrest⟩

theorem findConsecutivePages_withMem {k : ℕ} {start : Option ℕ}
    (h : s.findConsecutivePages k = some (start, s')) :
    (s.withMem m).findConsecutivePages k = some (start, s'.withMem m) := by
  unfold findConsecutivePages at h ⊢
  split_ifs at h ⊢
  · cases h
    rfl
  · obtain ⟨found, hsearch, h⟩ := Option.bind_eq_some_iff.mp h
    refine Option.bind_eq_some_iff.mpr ⟨found, hsearch, ?_⟩
    cases found with
    | none =>
      cases h
      rfl
    | some found =>
      obtain ⟨prev, potentialStart, pageWalker⟩ := found
      cases prev with
      | none =>
        cases h
        rfl
      | some p =>
        cases h
        rfl

/-- A large request reads no byte. -/
theorem alloc_large_withMem {size p : ℕ} (hlarge : 4096 < size) (h : s.alloc size = some (p, s')) :
    (s.withMem m).alloc size = some (p, s'.withMem m) := by
  unfold McKusickAllocator.alloc at h ⊢
  rw [if_neg (by omega), if_neg (not_le.mpr hlarge)] at h ⊢
  obtain ⟨⟨start, t⟩, hfind, h⟩ := Option.bind_eq_some_iff.mp h
  refine Option.bind_eq_some_iff.mpr
    ⟨(start, t.withMem m), findConsecutivePages_withMem m hfind, ?_⟩
  cases start with
  | none =>
    cases h
    rfl
  | some page =>
    cases h
    rfl

/-- Nor does the release of a large buffer. -/
theorem free_large_withMem {p page : ℕ} (hpage : s.findPageInfo p = some page)
    (hlarge : 4096 < (s.info page).size) (h : s.free p = some s') :
    (s.withMem m).free p = some (s'.withMem m) := by
  have hpage' : (s.withMem m).findPageInfo p = some page := hpage
  unfold McKusickAllocator.free at h ⊢
  rw [hpage'] 
  rw [hpage] at h
  dsimp only at h ⊢
  by_cases hzero : p = 0
  · rw [if_pos hzero] at h ⊢
    cases h
    rfl
  · rw [if_neg hzero, if_neg (not_le.mpr hlarge)] at h ⊢
    by_cases hstart : (s.info page).isStartOfBuffer = true
    · rw [if_pos hstart] at h ⊢
      exact releasePages_withMem m h
    · rw [if_neg hstart] at h ⊢
      cases h
      rfl

end WithMem

end McKusickAllocator

end McKusick
