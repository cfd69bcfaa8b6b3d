import AppearanceIndex.Proofs.Index.ReadBack
import AppearanceIndex.Proofs.Ingest.Receive

/-!
# Nothing is lost, nothing is invented

Of an index that was written into empty directories, every scan finds exactly what was added of its
address, and every ingest delivers exactly what was added to each range, the newest range first
(`IndexDirectory.recovered_of_written`).
-/

namespace AppearanceIndex

namespace IndexDirectory

variable {d : IndexDirectory} {chain : String} {start files : FileStore}
  {pairs : List RangeContent}

/-- The deliveries are the batches of these ranges, one range after another: full batches and one
that is marked as the last, which together bring exactly what was added to the range. -/
def Brings (d : IndexDirectory) (chain : String) (batchSize : Nat) (order : List RangeContent)
    (deliveries : List Delivery) : Prop :=
  ∃ done : List (ChunkEntry × List AppearanceBatch), deliveries = Ingest.deliveriesOf done ∧
    List.Forall₂ (fun entry pair => entry.1 = d.entryOf chain pair ∧
      entry.1.Batched batchSize (Ingest.appearancesOf entry.2) entry.2 ∧
      (Ingest.appearancesOf entry.2).Perm pair.2) done order

theorem forall₂_of_map_eq {α β γ : Type} {f : α → γ} {g : β → γ} {R : α → β → Prop}
    {as : List α} {bs : List β} (h : as.map f = bs.map g)
    (hr : ∀ a ∈ as, ∀ b ∈ bs, f a = g b → R a b) : List.Forall₂ R as bs := by
  induction as generalizing bs with
  | nil =>
    cases bs with
    | nil => exact .nil
    | cons b bs => cases h
  | cons a as ih =>
    cases bs with
    | nil => cases h
    | cons b bs =>
      rw [List.map_cons, List.map_cons, List.cons.injEq] at h
      refine .cons (hr a List.mem_cons_self b List.mem_cons_self h.1) (ih h.2 fun x hx y hy => ?_)
      exact hr x (List.mem_cons_of_mem _ hx) y (List.mem_cons_of_mem _ hy)

/-- What an ingest of a written index has produced when it has ended. -/
theorem Written.brings (h : d.Written chain start files pairs) (hp : ∀ p ∈ pairs, p.Proper)
    {order : List RangeContent} (ho : order.Perm pairs)
    (hlist : ChunkEntry.list files (d.chunkDirectory chain) ⟨none, none⟩ =
      .ok (order.map (d.entryOf chain))) {s : Ingest} (hfiles : s.files = files)
    (hdirectory : s.directory = d.chunkDirectory chain) (hs : s.settings.Possible)
    (hwindow : s.settings.window = ⟨none, none⟩) {deliveries : List Delivery}
    (hproduced : s.Produced deliveries .ended) :
    d.Brings chain s.settings.batchSize.val order deliveries := by
  have hlisted : ChunkEntry.list s.files s.directory s.settings.window =
      .ok (order.map (d.entryOf chain)) := by
    rw [hfiles, hdirectory, hwindow]
    exact hlist
  have hsound : ∀ chunk ∈ order.map (d.entryOf chain), ∃ bs, chunk.Sound s.files bs := by
    intro chunk hchunk
    obtain ⟨p, hmem, rfl⟩ := List.mem_map.mp hchunk
    rw [hfiles]
    exact ⟨_, h.sound (hp p (ho.subset hmem)) (ho.subset hmem)⟩
  obtain ⟨done, hdone, rfl⟩ := hproduced.completed hs hlisted hsound
  have hchunks : done.map Prod.fst = order.map (d.entryOf chain) := by
    rw [hdone.chunks_eq hlisted, List.append_nil]
  refine ⟨done, rfl, forall₂_of_map_eq hchunks fun entry hentry p hmem heq => ⟨heq, ?_, ?_⟩⟩
  · obtain ⟨items, -, hbatched⟩ := hdone.complete entry hentry
    have hitems : items = Ingest.appearancesOf entry.2 := hbatched.items_eq
    exact hitems ▸ hbatched
  · obtain ⟨bs, hreadable, hperm⟩ := (hdone.complete entry hentry).perm
    have hin := ho.subset hmem
    have hread := hreadable.read
    rw [heq, hfiles] at hread
    have hsame := hread.symm.trans (h.contentOf hin)
    rw [Except.ok.injEq] at hsame
    subst hsame
    rw [ChunkBuilder.decoded_build p.wellFormed (hp p hin).appearanceCount_lt] at hperm
    exact hperm.trans (ChunkBuilder.decoded_ofList_perm p.2)

theorem finishes_of_forall₂ {done : List (ChunkEntry × List AppearanceBatch)}
    {order : List RangeContent} {batchSize : Nat}
    (h : List.Forall₂ (fun entry pair => entry.1 = d.entryOf chain pair ∧
      entry.1.Batched batchSize (Ingest.appearancesOf entry.2) entry.2 ∧
      (Ingest.appearancesOf entry.2).Perm pair.2) done order) :
    Ingest.Finishes (Ingest.deliveriesOf done) (order.map (d.entryOf chain)) := by
  induction h with
  | nil => exact fun _ hmem => nomatch hmem
  | @cons entry pair done order hentry _ ih =>
    intro chunk hmem
    rcases List.mem_cons.mp hmem with rfl | hmem
    · obtain ⟨heq, ⟨full, last, hbatches, -, -, hname, hlast⟩, -⟩ := hentry
      refine ⟨last, List.mem_append_left _ (List.mem_map_of_mem ?_), heq ▸ hname, hlast⟩
      rw [hbatches]
      exact List.mem_append_right _ (List.mem_singleton_self last)
    · obtain ⟨batch, hbatch, hrest⟩ := ih chunk hmem
      exact ⟨batch, List.mem_append_right _ hbatch, hrest⟩

/-- Whoever was brought the ranges was brought the last batch of each. -/
theorem Brings.finishes {batchSize : Nat} {order : List RangeContent} {deliveries : List Delivery}
    (h : d.Brings chain batchSize order deliveries) :
    Ingest.Finishes deliveries (order.map (d.entryOf chain)) := by
  obtain ⟨done, rfl, hall⟩ := h
  exact finishes_of_forall₂ hall

/-- Of ranges that were written into empty directories of a chain, every scan finds, in some order,
exactly what was added of its address; and every ingest can be taken to its end from wherever it
has come to, and then brings all ranges from the newest to the oldest and for each exactly what was
added to it. -/
theorem recovered_of_written (hne : pairs ≠ []) (hn : (pairs.map Prod.fst).Nodup)
    (hp : ∀ p ∈ pairs, p.Proper) (hv : d.Vacant start chain)
    (hw : d.writeRanges start chain pairs = .ok files) :
    (∀ settings : ScanSettings, settings.Possible → ∀ address, ∃ scan,
      Scan.start? (d.source files chain) chain address settings = some scan ∧
        scan.Succeeds (pairs.flatMap fun p => p.builder.appearancesOf address)) ∧
    ∃ order : List RangeContent, order.Perm pairs ∧
      order.Pairwise (fun p q => q.1.cmp p.1 = .lt) ∧
      ∀ (settings : IngestSettings) (log : Option StatusLog), settings.Possible →
        settings.window = ⟨none, none⟩ →
          let ingest := Ingest.new settings (d.chunkDirectory chain) log files
          ingest.Delivers ingest.receiveAll.1 ∧
            (∀ taken t, ingest.Course taken t → t.abandoned = false →
              ∃ more, ingest.Delivers (taken ++ more)) ∧
            ∀ deliveries, ingest.Delivers deliveries →
              d.Brings chain settings.batchSize.val order deliveries := by
  have hwritten := written_of_writeRanges hv hp hn hw
  obtain ⟨names, hnames, hperm⟩ := hwritten.bloomNames hne hp hn
  obtain ⟨order, ho, hnewest, hlist⟩ := hwritten.chunkList hne hp hn
  have hcoherent := hwritten.coherent hp ho hnames hperm hlist
  refine ⟨fun settings hs address => ?_, order, ho, hnewest, fun settings log hs hwindow => ?_⟩
  · have hreadable : ∀ chunk ∈ order.map (d.entryOf chain), ∃ bs, chunk.Readable files bs := by
      intro chunk hchunk
      obtain ⟨p, hmem, rfl⟩ := List.mem_map.mp hchunk
      exact ⟨_, (hwritten.sound (hp p (ho.subset hmem)) (ho.subset hmem)).toReadable⟩
    obtain ⟨scan, hscan, hsucceeds⟩ := hcoherent.succeeds hreadable hs address
    refine ⟨scan, hscan, hsucceeds.perm ?_⟩
    rw [List.map_map, List.flatMap_map]
    refine (List.Perm.flatMap_left _ fun p hmem => ?_).trans (ho.flatMap_right _)
    exact hwritten.held_perm (hp p (ho.subset hmem)) (ho.subset hmem) address
  · refine ⟨Ingest.delivers_new _ _ _ _, ?_, fun deliveries hdelivers => ?_⟩
    · intro taken t hcourse ha
      exact hcourse.delivers ha
    · have hproduced := hdelivers.produced
      exact hwritten.brings hp ho hlist rfl rfl hs hwindow hproduced

/-! ## Two ranges, and none -/

def emptyStore : FileStore where
  workingPlace := []
  nodes := [(["index"], .directory)]

def sampleIndex : IndexDirectory := ⟨⟨"/index"⟩⟩

def sampleRanges : List RangeContent :=
  [(⟨0, 9⟩, [⟨.ofNat 2, ⟨4, 1⟩⟩, ⟨.ofNat 1, ⟨3, 0⟩⟩]), (⟨10, 19⟩, [⟨.ofNat 1, ⟨12, 5⟩⟩])]

def sampleScan : ScanSettings := ⟨⟨100, Nat.succ_pos 99⟩, ⟨100, Nat.succ_pos 99⟩⟩

def sampleIngest : IngestSettings :=
  ⟨⟨2, Nat.succ_pos 1⟩, ⟨5000, Nat.succ_pos 4999⟩, ⟨10000, Nat.succ_pos 9999⟩, ⟨none, none⟩⟩

theorem possible_sampleScan : sampleScan.Possible := ⟨by decide, by decide⟩

theorem possible_sampleIngest : sampleIngest.Possible := ⟨by decide, by decide⟩

theorem proper_sampleRanges : ∀ p ∈ sampleRanges, p.Proper := by
  intro p hp
  rcases List.mem_cons.mp hp with rfl | hp
  · exact ⟨by decide, by decide⟩
  · rw [List.mem_singleton.mp hp]
    exact ⟨by decide, by decide⟩

theorem vacant_emptyStore : sampleIndex.Vacant emptyStore "mainnet" := by
  have hblooms : emptyStore.target (sampleIndex.bloomDirectory "mainnet") =
      ["index", "mainnet", "blooms"] := by decide +kernel
  have hchunks : emptyStore.target (sampleIndex.chunkDirectory "mainnet") =
      ["index", "mainnet", "finalized"] := by decide +kernel
  refine ⟨fun name => ?_, fun name => ?_⟩
  · rw [hblooms]
    rfl
  · rw [hchunks]
    rfl

theorem exists_written_sampleRanges :
    ∃ files, sampleIndex.writeRanges emptyStore "mainnet" sampleRanges = .ok files := by
  have hok : (sampleIndex.writeRanges emptyStore "mainnet" sampleRanges).isOk = true := by
    decide +kernel
  cases hw : sampleIndex.writeRanges emptyStore "mainnet" sampleRanges with
  | ok files => exact ⟨files, rfl⟩
  | error e =>
    rw [hw] at hok
    cases hok

theorem recovered_of_two_ranges :
    ∃ files, sampleIndex.writeRanges emptyStore "mainnet" sampleRanges = .ok files ∧
      (∃ scan, Scan.start? (sampleIndex.source files "mainnet") "mainnet" (.ofNat 1) sampleScan =
        some scan ∧ scan.Succeeds [⟨3, 0⟩, ⟨12, 5⟩]) ∧
      ∃ order : List RangeContent, order.Perm sampleRanges ∧
        sampleIndex.Brings "mainnet" 5000 order (Ingest.new sampleIngest
          (sampleIndex.chunkDirectory "mainnet") none files).receiveAll.1 := by
  obtain ⟨files, hw⟩ := exists_written_sampleRanges
  obtain ⟨hscan, order, ho, -, hingest⟩ := recovered_of_written (by decide) (by decide)
    proper_sampleRanges vacant_emptyStore hw
  have happs : sampleRanges.flatMap (fun p => p.builder.appearancesOf (.ofNat 1)) =
      [⟨3, 0⟩, ⟨12, 5⟩] := by decide +kernel
  have hfound := hscan sampleScan possible_sampleScan (.ofNat 1)
  rw [happs] at hfound
  obtain ⟨hdelivers, -, hbrings⟩ := hingest sampleIngest none possible_sampleIngest rfl
  exact ⟨files, hw, hfound, order, ho, hbrings _ hdelivers⟩

/-- Where no range was written, the directories of the chain are missing, and that is a failure. -/
theorem missing_of_no_ranges :
    sampleIndex.Vacant emptyStore "mainnet" ∧
      sampleIndex.writeRanges emptyStore "mainnet" [] = .ok emptyStore ∧
      (∃ scan, Scan.start? (sampleIndex.source emptyStore "mainnet") "mainnet" (.ofNat 1)
        sampleScan = some scan ∧ scan.Fails) ∧
      ∀ deliveries, (Ingest.new sampleIngest (sampleIndex.chunkDirectory "mainnet") none
        emptyStore).Delivers deliveries → ∃ f, deliveries = [.failure f] := by
  refine ⟨vacant_emptyStore, rfl, ?_, fun deliveries hdelivers => ?_⟩
  · have hunlisted : (sampleIndex.bloomNames emptyStore "mainnet").isOk = false := by
      decide +kernel
    exact fails_of_unlisted hunlisted possible_sampleScan _
  · have hunlisted : (ChunkEntry.list emptyStore (sampleIndex.chunkDirectory "mainnet")
        sampleIngest.window).isOk = false := by decide +kernel
    exact Ingest.failure_of_unlisted hunlisted hdelivers

end IndexDirectory

end AppearanceIndex
