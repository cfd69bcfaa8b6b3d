import AppearanceIndex.Proofs.Index.RoundTrip

/-!
# Scans and ingests agree

A scan reads filters and looks addresses up, an ingest decodes whole chunks. Over a coherent index,
a scan for an address finds exactly what an ingest of all chunks delivers of it.
-/

namespace AppearanceIndex

namespace IndexDirectory

variable {d : IndexDirectory} {files : FileStore} {chain : String} {address : Address}

/-- A complete decode of a chunk gives of an address what the chunk file holds of it. -/
theorem perm_held {s : Ingest} (hfiles : s.files = files) {chunk : ChunkEntry}
    {batches : List AppearanceBatch} (h : s.Completes chunk batches)
    (hpath : chunk.path = d.chunkPath chain chunk.name) :
    (((Ingest.appearancesOf batches).filter (·.address = address)).map (·.appearance)).Perm
      (d.held files chain address chunk.name) := by
  obtain ⟨bs, hreadable, hperm⟩ := h.perm
  have hread := hreadable.read
  rw [hfiles, hpath] at hread
  unfold held
  rw [hread]
  exact (hperm.filter _).map _

end IndexDirectory

/-! ## What was delivered of an address -/

def Delivery.appearances : Delivery → List DecodedAppearance
  | batch b => b.appearances
  | failure _ => []

namespace Ingest

def deliveredOf (address : Address) (deliveries : List Delivery) : List Appearance :=
  ((deliveries.flatMap Delivery.appearances).filter (·.address = address)).map (·.appearance)

theorem deliveredOf_deliveriesOf (address : Address)
    (done : List (ChunkEntry × List AppearanceBatch)) :
    deliveredOf address (deliveriesOf done) = done.flatMap fun entry =>
      ((appearancesOf entry.2).filter (·.address = address)).map (·.appearance) := by
  unfold deliveredOf deliveriesOf
  induction done with
  | nil => rfl
  | cons entry done ih =>
    have hentry : (asDeliveries entry.2).flatMap Delivery.appearances = appearancesOf entry.2 := by
      unfold asDeliveries appearancesOf
      rw [List.flatMap_map]
      rfl
    rw [List.flatMap_cons, List.flatMap_append, List.filter_append, List.map_append, ih, hentry,
      List.flatMap_cons]

/-- The deliveries of complete chunks bring of an address what the chunk files hold of it. -/
theorem Completed.perm_held {s : Ingest} {d : IndexDirectory} {chain : String}
    {done : List (ChunkEntry × List AppearanceBatch)} (h : s.Completed done [])
    (hdirectory : s.directory = d.chunkDirectory chain) (address : Address) :
    (deliveredOf address (deliveriesOf done)).Perm
      (((done.map Prod.fst).map ChunkEntry.name).flatMap (d.held s.files chain address)) := by
  rw [deliveredOf_deliveriesOf, List.flatMap_map, List.flatMap_map]
  refine List.Perm.flatMap_left _ fun entry hentry => ?_
  have hlisted := h.listed
  have hmem : entry.1 ∈ done.map Prod.fst ++ [] := by
    rw [List.append_nil]
    exact List.mem_map_of_mem hentry
  have hpath := (ChunkEntry.of_mem_list hlisted hmem).1
  rw [hdirectory] at hpath
  exact IndexDirectory.perm_held rfl (h.complete entry hentry) hpath

end Ingest

namespace IndexDirectory

variable {d : IndexDirectory} {files : FileStore} {chain : String} {blooms : List String}
  {chunks : List ChunkEntry}

/-- When every chunk of a coherent index was ingested to its last batch, a scan for any address
succeeds and finds, in some order, what was delivered of the address. -/
theorem succeeds_of_ingested (h : d.Coherent files chain blooms chunks)
    {settings : IngestSettings} {log : Option StatusLog} {deliveries : List Delivery} {t : Ingest}
    (hwindow : settings.window = ⟨none, none⟩)
    (hcourse : (Ingest.new settings (d.chunkDirectory chain) log files).Course deliveries t)
    (hlast : Ingest.Finishes deliveries chunks) {scanSettings : ScanSettings}
    (hpossible : scanSettings.Possible) (address : Address) :
    ∃ scan, Scan.start? (d.source files chain) chain address scanSettings = some scan ∧
      scan.Succeeds (Ingest.deliveredOf address deliveries) := by
  have hlisted : ChunkEntry.list files (d.chunkDirectory chain) settings.window = .ok chunks := by
    rw [hwindow]
    exact h.chunkList
  obtain ⟨done, hdone, rfl⟩ :=
    hcourse.traced.completed_of_last hlisted (ChunkEntry.nodup_list h.chunkList) hlast
  have hchunks : done.map Prod.fst = chunks := by
    rw [hdone.chunks_eq hlisted, List.append_nil]
  have hreadable : ∀ chunk ∈ chunks, ∃ bs, chunk.Readable files bs := by
    intro chunk hchunk
    rw [← hchunks] at hchunk
    obtain ⟨entry, hentry, rfl⟩ := List.mem_map.mp hchunk
    obtain ⟨bs, hbs, -⟩ := (hdone.complete entry hentry).perm
    exact ⟨bs, hbs⟩
  obtain ⟨scan, hscan, hsucceeds⟩ := h.succeeds hreadable hpossible address
  refine ⟨scan, hscan, hsucceeds.perm ?_⟩
  rw [← hchunks]
  exact (hdone.perm_held rfl address).symm

theorem succeeds_of_two_ranges_ingested :
    ∃ files deliveries, sampleIndex.writeRanges emptyStore "mainnet" sampleRanges = .ok files ∧
      (Ingest.new sampleIngest (sampleIndex.chunkDirectory "mainnet") none files).Delivers
        deliveries ∧
      ∃ scan, Scan.start? (sampleIndex.source files "mainnet") "mainnet" (.ofNat 1) sampleScan =
        some scan ∧ scan.Succeeds (Ingest.deliveredOf (.ofNat 1) deliveries) := by
  obtain ⟨files, hw⟩ := exists_written_sampleRanges
  have hne : sampleRanges ≠ [] := by decide
  have hn : (sampleRanges.map Prod.fst).Nodup := by decide
  have hp := proper_sampleRanges
  have hwritten := written_of_writeRanges vacant_emptyStore hp hn hw
  obtain ⟨names, hnames, hperm⟩ := hwritten.bloomNames hne hp hn
  obtain ⟨order, ho, -, hlist⟩ := hwritten.chunkList hne hp hn
  have hdelivers := Ingest.delivers_new sampleIngest (sampleIndex.chunkDirectory "mainnet") none
    files
  have hbrings := hwritten.brings hp ho hlist rfl rfl possible_sampleIngest rfl hdelivers.produced
  refine ⟨files, _, hw, hdelivers, ?_⟩
  obtain ⟨t, hcourse, -⟩ := hdelivers
  exact succeeds_of_ingested (hwritten.coherent hp ho hnames hperm hlist) rfl hcourse
    hbrings.finishes possible_sampleScan (.ofNat 1)

/-- A chain without chunks whose directory of filters is missing. -/
def bloomlessStore : FileStore where
  workingPlace := []
  nodes := [(["index"], .directory), (["index", "mainnet"], .directory),
    (["index", "mainnet", "finalized"], .directory)]

/-- Without files at all, an ingest ends without failure, but a scan fails. -/
theorem scan_fails_of_missing_blooms :
    (∀ entry ∈ bloomlessStore.nodes, (entry.2 matches .directory) = true) ∧
      (Ingest.new sampleIngest (sampleIndex.chunkDirectory "mainnet") none
        bloomlessStore).Delivers [] ∧
      ∃ scan, Scan.start? (sampleIndex.source bloomlessStore "mainnet") "mainnet" (.ofNat 1)
        sampleScan = some scan ∧ scan.Fails := by
  refine ⟨by decide, Ingest.delivers_nil ?_, ?_⟩
  · have hlist : (ChunkEntry.list bloomlessStore (sampleIndex.chunkDirectory "mainnet")
        sampleIngest.window).toOption = some [] := by decide +kernel
    cases hok : ChunkEntry.list bloomlessStore (sampleIndex.chunkDirectory "mainnet")
        sampleIngest.window with
    | ok chunks =>
      rw [hok] at hlist
      exact congrArg Except.ok (Option.some.inj hlist)
    | error f =>
      rw [hok] at hlist
      cases hlist
  · have hunlisted : (sampleIndex.bloomNames bloomlessStore "mainnet").isOk = false := by
      decide +kernel
    exact fails_of_unlisted hunlisted possible_sampleScan _

end IndexDirectory

end AppearanceIndex
