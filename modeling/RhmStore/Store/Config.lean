import RhmStore.Jrnl.Record

/-! # Journal geometry from the store's options

File sizes are given in pages of 64 KiB and write pages in KiB; the journals count both in sblks. -/

namespace RhmStore

namespace Store

def jrnlMinFileSize : Nat := 128

def jrnlMaxFileSize : Nat := 4194176

/-- JRNL_MIN_NUM_FILES. -/
def jrnlMinNumFiles : Nat := 4

/-- JRNL_MAX_NUM_FILES. -/
def jrnlMaxNumFiles : Nat := 64

def jrnlRmgrPageSize : Nat := 128

def jrnlWmgrDefPageSize : Nat := 64

def jrnlWmgrDefPages : Nat := 32

/-- `StoreOptions`, less the directory and the truncate flag. -/
structure StoreOptions where
  numJrnlFiles : Nat := 8
  autoJrnlExpand : Bool := false
  autoJrnlExpandMaxFiles : Nat := 0
  jrnlFsizePgs : Nat := 24
  wCachePageSizeKib : Nat := 32
  tplNumJrnlFiles : Nat := 8
  tplJrnlFsizePgs : Nat := 24
  tplWCachePageSizeKib : Nat := 4
  deriving DecidableEq, Repr

/-- `StoreException` for a write page larger than the file, with the sizes in its text: pages, kB of
the file, kB of the write page. -/
inductive StoreErr
  | fileSizeLessThanWritePage (pages fileKb writePageKb : Nat)
  deriving DecidableEq, Repr

def chkJrnlNumFilesParam (param : Nat) : Nat :=
  if param < jrnlMinNumFiles then jrnlMinNumFiles
  else if jrnlMaxNumFiles < param then jrnlMaxNumFiles
  else param

def chkJrnlFileSizeParam (param wCachePgSizeSblks : Nat) : Except StoreErr Nat :=
  let min := jrnlMinFileSize / jrnlRmgrPageSize
  let max := jrnlMaxFileSize / jrnlRmgrPageSize
  let p := if param < min then min else if max < param then max else param
  if p * jrnlRmgrPageSize < wCachePgSizeSblks then
    .error (.fileSizeLessThanWritePage p (p * jrnlRmgrPageSize / 2) (wCachePgSizeSblks / 2))
  else .ok p

def chkJrnlWrPageCacheSize (param jrnlFsizePgs : Nat) : Nat :=
  if param ∈ [1, 2, 4, 8, 16, 32, 64, 128] then
    if jrnlFsizePgs = 1 then 64 else param
  else if param = 0 then jrnlWmgrDefPageSize * jrnlDblkSize * jrnlSblkSize / 1024
  else if param < 6 then 4
  else if param < 12 then 8
  else if param < 24 then 16
  else if param < 48 then 32
  else if param < 96 then 64
  else 128

def getJrnlWrNumPages (wrPageSizeKib : Nat) : Nat :=
  let wrPageSizeSblks := wrPageSizeKib * 1024 / jrnlDblkSize / jrnlSblkSize
  let defTotWCacheSize := jrnlWmgrDefPageSize * jrnlWmgrDefPages
  if wrPageSizeKib ∈ [1, 2, 4] then defTotWCacheSize / wrPageSizeSblks / 4
  else if wrPageSizeKib ∈ [8, 16] then defTotWCacheSize / wrPageSizeSblks / 2
  else defTotWCacheSize / wrPageSizeSblks

/-- `chkJrnlAutoExpandOptions`: whether to expand, and up to how many files. -/
def chkJrnlAutoExpandOptions (opts : StoreOptions) (numJrnlFiles : Nat) : Bool × Nat :=
  let p := opts.autoJrnlExpandMaxFiles
  if !opts.autoJrnlExpand then (false, 0)
  else if numJrnlFiles = jrnlMaxNumFiles then (false, 0)
  else if jrnlMaxNumFiles < p then (true, jrnlMaxNumFiles)
  else if p ≠ 0 ∧ p = ({} : StoreOptions).autoJrnlExpandMaxFiles ∧
      numJrnlFiles ≠ ({} : StoreOptions).tplNumJrnlFiles then
    (true, if 2 * numJrnlFiles ≤ jrnlMaxNumFiles then 2 * numJrnlFiles else jrnlMaxNumFiles)
  else (true, p)

/-- The geometry members of `MessageStoreImpl`. -/
structure MessageStoreImpl where
  numJrnlFiles : Nat
  autoJrnlExpand : Bool
  autoJrnlExpandMaxFiles : Nat
  jrnlFsizeSblks : Nat
  wCachePgSizeSblks : Nat
  wCacheNumPages : Nat
  tplNumJrnlFiles : Nat
  tplJrnlFsizeSblks : Nat
  tplWCachePgSizeSblks : Nat
  tplWCacheNumPages : Nat
  deriving DecidableEq, Repr

/-- The parts of both `MessageStoreImpl::init` that set the geometry. -/
def init (opts : StoreOptions) : Except StoreErr MessageStoreImpl := do
  let numJrnlFiles := chkJrnlNumFilesParam opts.numJrnlFiles
  let jrnlFsizePgs ← chkJrnlFileSizeParam opts.jrnlFsizePgs 0
  let jrnlWrCachePageSizeKib := chkJrnlWrPageCacheSize opts.wCachePageSizeKib jrnlFsizePgs
  let tplNumJrnlFiles := chkJrnlNumFilesParam opts.tplNumJrnlFiles
  let tplJrnlFSizePgs ← chkJrnlFileSizeParam opts.tplJrnlFsizePgs 0
  let tplJrnlWrCachePageSizeKib := chkJrnlWrPageCacheSize opts.tplWCachePageSizeKib tplJrnlFSizePgs
  let ae := chkJrnlAutoExpandOptions opts numJrnlFiles
  pure {
    numJrnlFiles := numJrnlFiles
    autoJrnlExpand := ae.1
    autoJrnlExpandMaxFiles := ae.2
    jrnlFsizeSblks := jrnlFsizePgs * jrnlRmgrPageSize
    wCachePgSizeSblks := jrnlWrCachePageSizeKib * 1024 / jrnlDblkSize / jrnlSblkSize
    wCacheNumPages := getJrnlWrNumPages jrnlWrCachePageSizeKib
    tplNumJrnlFiles := tplNumJrnlFiles
    tplJrnlFsizeSblks := tplJrnlFSizePgs * jrnlRmgrPageSize
    tplWCachePgSizeSblks := tplJrnlWrCachePageSizeKib * 1024 / jrnlDblkSize / jrnlSblkSize
    tplWCacheNumPages := getJrnlWrNumPages tplJrnlWrCachePageSizeKib }

/-- What reaches `wmgr::initialize`: the file size of its `jcntl`, the page size and their number. -/
structure WmgrSizes where
  jfsizeSblks : Nat
  wcachePgsizeSblks : Nat
  wcacheNumPages : Nat
  deriving DecidableEq, Repr

/-- `jcntl::initialize`, by its parameters that are sizes. -/
def jcntlInitialize (jfsizeSblks wcacheNumPages wcachePgsizeSblks : Nat) : WmgrSizes :=
  ⟨jfsizeSblks, wcachePgsizeSblks, wcacheNumPages⟩

/-- `jcntl::recover` of a journal whose info file says `jinfJfsizeSblks`. -/
def jcntlRecover (jinfJfsizeSblks jfsizeSblks wcacheNumPages wcachePgsizeSblks : Nat) : WmgrSizes :=
  ⟨if jfsizeSblks ≠ jinfJfsizeSblks then jinfJfsizeSblks else jfsizeSblks, wcachePgsizeSblks,
    wcacheNumPages⟩

namespace MessageStoreImpl

/-- `MessageStoreImpl::create` of a queue without a size of its own. -/
def create (s : MessageStoreImpl) : WmgrSizes :=
  jcntlInitialize s.jrnlFsizeSblks s.wCacheNumPages s.wCachePgSizeSblks

def recoverQueues (s : MessageStoreImpl) (jinfJfsizeSblks : Nat) : WmgrSizes :=
  jcntlRecover jinfJfsizeSblks s.jrnlFsizeSblks s.wCacheNumPages s.wCachePgSizeSblks

def chkTplStoreInit (s : MessageStoreImpl) : WmgrSizes :=
  jcntlInitialize s.tplJrnlFsizeSblks s.tplWCacheNumPages s.tplWCachePgSizeSblks

/-- `MessageStoreImpl::recoverTplStore`, which gives the page size for the number of pages. -/
def recoverTplStore (s : MessageStoreImpl) (jinfJfsizeSblks : Nat) : WmgrSizes :=
  jcntlRecover jinfJfsizeSblks s.tplJrnlFsizeSblks s.tplWCachePgSizeSblks s.tplWCacheNumPages

end MessageStoreImpl

/-- A file is one or more whole pages, and page size and number are as configured. -/
structure WmgrSizes.AsConfigured (w : WmgrSizes) (pgSizeSblks numPages : Nat) : Prop where
  whole : ∃ k, 0 < k ∧ w.jfsizeSblks = k * w.wcachePgsizeSblks
  pgSize : w.wcachePgsizeSblks = pgSizeSblks
  numPages : w.wcacheNumPages = numPages

/-- Both journals get what is configured, when they are set up and when they are recovered. The store
was created as `created`, with these options or others. -/
structure MessageStoreImpl.AsConfigured (s created : MessageStoreImpl) : Prop where
  create : s.create.AsConfigured s.wCachePgSizeSblks s.wCacheNumPages
  recoverQueues :
    (s.recoverQueues created.create.jfsizeSblks).AsConfigured s.wCachePgSizeSblks s.wCacheNumPages
  chkTplStoreInit : s.chkTplStoreInit.AsConfigured s.tplWCachePgSizeSblks s.tplWCacheNumPages
  recoverTplStore : (s.recoverTplStore created.chkTplStoreInit.jfsizeSblks).AsConfigured
    s.tplWCachePgSizeSblks s.tplWCacheNumPages

/-- The file size option comes to an even number of 64 KiB. -/
def EvenPgs (fsizePgs : Nat) : Prop := 0 < fsizePgs ∧ fsizePgs < 32767 ∧ fsizePgs % 2 = 0

/-- The page size option does not come to 128 KiB, or neither file size to an odd number of 64 KiB. -/
def WholePages (createdPgs fsizePgs pageKib : Nat) : Prop :=
  pageKib < 96 ∨ pageKib = 128 ∧ fsizePgs ≤ 1 ∨ EvenPgs fsizePgs ∧ EvenPgs createdPgs

/-- The page size option comes to 16 KiB: there are then as many pages as a page has sblks. -/
def SquareCache (fsizePgs pageKib : Nat) : Prop :=
  12 ≤ pageKib ∧ pageKib < 24 ∧ (pageKib = 16 → 1 < fsizePgs)

def filePgs (fsizePgs : Nat) : Nat := max 1 (min fsizePgs 32767)

theorem chkJrnlFileSizeParam_eq (param : Nat) : chkJrnlFileSizeParam param 0 = .ok (filePgs param) := by
  have hp : (if param < jrnlMinFileSize / jrnlRmgrPageSize then jrnlMinFileSize / jrnlRmgrPageSize
      else if jrnlMaxFileSize / jrnlRmgrPageSize < param then jrnlMaxFileSize / jrnlRmgrPageSize
      else param) = filePgs param := by
    unfold filePgs jrnlMinFileSize jrnlMaxFileSize jrnlRmgrPageSize
    split
    · omega
    · split <;> omega
  simp only [chkJrnlFileSizeParam, hp]
  rw [if_neg (Nat.not_lt_zero _)]

theorem chkJrnlWrPageCacheSize_mem (param n : Nat) :
    chkJrnlWrPageCacheSize param n ∈ [1, 2, 4, 8, 16, 32, 64, 128] := by
  unfold chkJrnlWrPageCacheSize
  split
  · split
    · decide
    · assumption
  · split
    · decide
    · repeat' split
      all_goals decide

theorem chkJrnlWrPageCacheSize_eq_128 (fsizePgs param : Nat) :
    chkJrnlWrPageCacheSize param (filePgs fsizePgs) = 128 ↔
      96 ≤ param ∧ ¬(param = 128 ∧ fsizePgs ≤ 1) := by
  have hn : filePgs fsizePgs = 1 ↔ fsizePgs ≤ 1 := by
    unfold filePgs
    omega
  unfold chkJrnlWrPageCacheSize
  simp only [List.mem_cons, List.not_mem_nil, or_false, hn, jrnlWmgrDefPageSize, jrnlDblkSize,
    jrnlSblkSize]
  split
  · split <;> omega
  · repeat' split
    all_goals omega

theorem chkJrnlWrPageCacheSize_eq_16 (fsizePgs param : Nat) :
    chkJrnlWrPageCacheSize param (filePgs fsizePgs) = 16 ↔ SquareCache fsizePgs param := by
  have hn : filePgs fsizePgs = 1 ↔ fsizePgs ≤ 1 := by
    unfold filePgs
    omega
  unfold chkJrnlWrPageCacheSize SquareCache
  simp only [List.mem_cons, List.not_mem_nil, or_false, hn, jrnlWmgrDefPageSize, jrnlDblkSize,
    jrnlSblkSize]
  split
  · split <;> omega
  · repeat' split
    all_goals omega

private theorem whole_iff_even {n kib : Nat} (hn : 0 < n) (hk : kib ∈ [1, 2, 4, 8, 16, 32, 64, 128]) :
    (∃ k, 0 < k ∧ n * 128 = k * (kib * 1024 / 128 / 4)) ↔ (kib = 128 → n % 2 = 0) := by
  simp only [List.mem_cons, List.not_mem_nil, or_false] at hk
  have hfill : ∀ q, 0 < q → n * 128 = n * q * (kib * 1024 / 128 / 4) → kib ≠ 128 →
      ((∃ k, 0 < k ∧ n * 128 = k * (kib * 1024 / 128 / 4)) ↔ (kib = 128 → n % 2 = 0)) := by
    intro q hq he hne
    exact ⟨fun _ h => (hne h).elim, fun _ => ⟨n * q, Nat.mul_pos hn hq, he⟩⟩
  rcases hk with rfl | rfl | rfl | rfl | rfl | rfl | rfl | rfl
  · exact hfill 64 (by decide) (by omega) (by decide)
  · exact hfill 32 (by decide) (by omega) (by decide)
  · exact hfill 16 (by decide) (by omega) (by decide)
  · exact hfill 8 (by decide) (by omega) (by decide)
  · exact hfill 4 (by decide) (by omega) (by decide)
  · exact hfill 2 (by decide) (by omega) (by decide)
  · exact hfill 1 (by decide) (by omega) (by decide)
  · constructor
    · rintro ⟨k, -, hk⟩ -
      omega
    · intro he
      exact ⟨n / 2, by have := he rfl; omega, by have := he rfl; omega⟩

theorem whole_iff (createdPgs fsizePgs pageKib : Nat) :
    (∃ k, 0 < k ∧ filePgs createdPgs * jrnlRmgrPageSize =
      k * (chkJrnlWrPageCacheSize pageKib (filePgs fsizePgs) * 1024 / jrnlDblkSize / jrnlSblkSize)) ↔
      pageKib < 96 ∨ pageKib = 128 ∧ fsizePgs ≤ 1 ∨ EvenPgs createdPgs := by
  have hpos : 0 < filePgs createdPgs := by
    unfold filePgs
    omega
  refine (whole_iff_even hpos (chkJrnlWrPageCacheSize_mem _ _)).trans ?_
  rw [chkJrnlWrPageCacheSize_eq_128]
  unfold EvenPgs filePgs
  omega

theorem SquareCache.lt {fsizePgs pageKib : Nat} (h : SquareCache fsizePgs pageKib) : pageKib < 96 :=
  Nat.lt_trans h.2.1 (by decide)

theorem getJrnlWrNumPages_eq {kib : Nat} (hk : kib ∈ [1, 2, 4, 8, 16, 32, 64, 128]) :
    getJrnlWrNumPages kib = kib * 1024 / jrnlDblkSize / jrnlSblkSize ↔ kib = 16 := by
  simp only [List.mem_cons, List.not_mem_nil, or_false] at hk
  rcases hk with rfl | rfl | rfl | rfl | rfl | rfl | rfl | rfl <;> decide

end Store

end RhmStore
