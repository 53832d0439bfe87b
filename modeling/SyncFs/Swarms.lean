import SyncFs.DigestAddresses
import SyncFs.OneMemory
import SyncFs.Parties

/-!
# A swarm of nodes

The nodes of a swarm run this program and hear nothing but one another. The
publisher hands a message to whoever subscribed to its beginning, in any order
and any number of times, or drops it.
-/

namespace SyncFs

open CharConversions LabelledRuns Parties

variable {ι : Type}

/-- A node as a party: a message reaches it when it subscribed to its beginning. -/
def World.party (w : World) : Party Node Event (List Bytes) where
  step := SyncFs.step w
  said := Node.sent
  hears := messageOf
  reached := delivers (subscribe w.endpoint)

def swarmStep [DecidableEq ι] [Fintype ι] (w : ι → World) :
    (ι → Node) → ι × Event → Option (ι → Node) :=
  Parties.step fun i => (w i).party

def swarmStart (disks : ι → Disk) (clocks : ι → TimePoint) (steadies : ι → SteadyTime) :
    ι → Node := fun i => Node.start (disks i) (clocks i) (steadies i)

def Disk.Holds (disk : Disk) (path : Path) (content : Bytes) : Prop :=
  ∃ file, disk[path]? = some file ∧ file.content = content

/-- What one machine's libtorrent writes of a file in play the others' read: the
content, and the file's path without some of the directories above it, or without
none. -/
def SharedTorrents (w : ι → World) (plays : Path → Bytes → Prop) : Prop :=
  ∀ i j (path : Path) (content : Bytes), path.IsKey → plays path content →
    ∃ torrent, (w j).loadTorrentBuffer ((w i).generateBuf path content) = some torrent ∧
      torrent.content = content ∧ torrent.filePath.rooted = false ∧
        torrent.filePath.parts ≠ [] ∧ torrent.filePath.parts <:+ path.parts.tail

theorem SharedTorrents.lands {w : ι → World} {plays : Path → Bytes → Prop}
    (hw : SharedTorrents w plays) (i j : ι) {path : Path} {content : Bytes} (hp : path.IsKey)
    (hc : plays path content) :
    ∃ torrent, (w j).loadTorrentBuffer ((w i).generateBuf path content) = some torrent ∧
      torrent.content = content ∧ Lands (w j) path torrent := by
  obtain ⟨torrent, hload, hc, hr, hne, tops, htops⟩ := hw i j path content hp hc
  exact ⟨torrent, hload, hc, lands_of_dropped hp hr hne htops.symm⟩

/-- Two machines that differ in where they publish. -/
def samplePair (second : Bool) : World where
  root := sampleWorld.root
  root_rooted := sampleWorld.root_rooted
  root_plain := sampleWorld.root_plain
  endpoint := if second then ascii "tcp://10.0.0.2:5555" else sampleWorld.endpoint
  sha256 := sampleWorld.sha256
  loadTorrentBuffer := sampleWorld.loadTorrentBuffer
  generateBuf := sampleWorld.generateBuf

theorem samplePair_shared (plays : Path → Bytes → Prop) : SharedTorrents samplePair plays := by
  intro i j path content hp _
  have hplain : ∀ c ∈ path.parts.tail, c ≠ [] ∧ slash ∉ c ∧ nul ∉ c := fun c hc =>
    hp.mem_parts (List.mem_of_mem_tail hc)
  have hcut : ClosedFields.cut nul ((samplePair i).generateBuf path content) =
      some (Path.native ⟨false, path.parts.tail⟩, content) := by
    change ClosedFields.cut nul (path.lexicallyNormal.native ++ nul :: content) = _
    rw [hp.lexicallyNormal]
    exact ClosedFields.cut_append (Path.nul_notMem_native fun c hc => (hplain c hc).2.2)
  have hback : Path.ofNative (Path.native ⟨false, path.parts.tail⟩) = ⟨false, path.parts.tail⟩ :=
    Path.ofNative_native hp.2.2.1 fun c hc => ⟨(hplain c hc).1, (hplain c hc).2.1⟩
  refine ⟨_, congrArg (Option.map _) hcut, rfl, ?_⟩
  dsimp only
  rw [hback]
  exact ⟨rfl, hp.2.2.1, List.suffix_refl _⟩

theorem sampleHash_injective :
    Function.Injective fun b : Bytes => b.foldl (fun n c => n * 257 + c.toNat + 1) 0 := by
  intro as
  induction as using List.reverseRecOn with
  | nil =>
    intro bs h
    rcases List.eq_nil_or_concat' bs with rfl | ⟨bs, b, rfl⟩
    · rfl
    · simp [List.foldl_append] at h
  | append_singleton as a ih =>
    intro bs h
    rcases List.eq_nil_or_concat' bs with rfl | ⟨bs, b, rfl⟩
    · simp [List.foldl_append] at h
    · simp only [List.foldl_append, List.foldl_cons, List.foldl_nil] at h
      have ha := a.toNat_lt
      have hb := b.toNat_lt
      have hrest : as.foldl (fun n c => n * 257 + c.toNat + 1) 0 =
          bs.foldl (fun n c => n * 257 + c.toNat + 1) 0 := by omega
      have hlast : a = b := UInt8.toNat_inj.mp (by omega)
      rw [ih hrest, hlast]

/-- Two files for the pair to hold. -/
def sampleTree : Disk :=
  .ofList [(samplePath, sampleFile "x" 900), (Path.ofNative (ascii "./b"), sampleFile "y" 900)]
    compare

def does (second : Bool) (es : List Event) : List (Bool × Event) := es.map fun e => (second, e)

end SyncFs
