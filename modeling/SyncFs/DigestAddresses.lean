import SyncFs.SyncLoop

/-!
# Who hears a message

A publisher hands a message to whoever subscribed to a beginning of its first
part. Every node takes the verbs that are broadcast, and of the digests the
ones framed with its own endpoint.
-/

namespace SyncFs

open CharConversions ClosedFields

/-- `protocol::subscribe`: the beginnings a node asks the publisher for. -/
def subscribe (endpoint : Bytes) : List Bytes :=
  [ascii "create", ascii "remove", ascii "state", address (ascii "digest") endpoint]

def delivers (subscriptions v : List Bytes) : Bool :=
  subscriptions.any fun subscription => subscription.isPrefixOf (part v 0)

theorem delivers_iff {subscriptions v : List Bytes} :
    delivers subscriptions v = true ↔ ∃ s ∈ subscriptions, s <+: part v 0 := by
  simp [delivers]

theorem ne_nil_of_delivers {endpoint : Bytes} {v : List Bytes}
    (hv : delivers (subscribe endpoint) v = true) : v ≠ [] := by
  rintro rfl
  obtain ⟨s, hs, hp⟩ := delivers_iff.mp hv
  obtain rfl : s = [] := List.prefix_nil.mp hp
  simp only [subscribe, List.mem_cons, List.not_mem_nil, or_false] at hs
  rcases hs with hs | hs | hs | hs
  · exact absurd hs (by decide)
  · exact absurd hs (by decide)
  · exact absurd hs (by decide)
  · simp [address] at hs

/-- The framing at both ends keeps one endpoint from being the beginning of
another. -/
theorem address_prefix_iff {verb e t : Bytes} (he : nul ∉ e) (ht : nul ∉ t) :
    address verb e <+: address verb t ↔ e = t := by
  constructor
  · rintro ⟨rest, hrest⟩
    simp only [address, List.append_assoc, List.append_cancel_left_eq, List.cons_append,
      List.nil_append, List.cons.injEq, true_and] at hrest
    have hcut : cut nul (e ++ nul :: rest) = cut nul (t ++ [nul]) := congrArg (cut nul) hrest
    rw [cut_append he, cut_append ht, Option.some.injEq, Prod.mk.injEq] at hcut
    exact hcut.1
  · rintro rfl
    exact List.prefix_refl _

theorem delivers_broadcast {endpoint : Bytes} {v : List Bytes}
    (hv : part v 0 ∈ [ascii "create", ascii "remove", ascii "state"]) :
    delivers (subscribe endpoint) v = true := by
  refine delivers_iff.mpr ⟨part v 0, ?_, List.prefix_refl _⟩
  exact List.mem_append_left [address (ascii "digest") endpoint] hv

private theorem not_prefix_digest {verb t : Bytes}
    (hv : verb ∈ [ascii "create", ascii "remove", ascii "state"]) :
    ¬ verb <+: address (ascii "digest") t := by
  intro hp
  have hhead : verb.head? = some 100 := by
    obtain ⟨rest, hrest⟩ := hp
    have hne : verb ≠ [] := by
      rintro rfl
      exact absurd hv (by decide)
    rw [← List.head?_append_of_ne_nil verb hne, hrest]
    rfl
  simp only [List.mem_cons, List.not_mem_nil, or_false] at hv
  rcases hv with rfl | rfl | rfl <;> exact absurd hhead (by decide)

/-- A digest is heard by the node it is addressed at and by no other. -/
theorem delivers_digest_iff {e t : Bytes} (he : nul ∉ e) (ht : nul ∉ t) (held deleted : Bytes) :
    delivers (subscribe e) (Source.digest t held deleted) = true ↔ e = t := by
  rw [delivers_iff]
  change (∃ s ∈ subscribe e, s <+: address (ascii "digest") t) ↔ e = t
  constructor
  · rintro ⟨s, hs, hp⟩
    rcases List.mem_append.mp (show s ∈ [ascii "create", ascii "remove", ascii "state"] ++
      [address (ascii "digest") e] from hs) with hs | hs
    · exact absurd hp (not_prefix_digest hs)
    · rw [List.mem_singleton.mp hs] at hp
      exact (address_prefix_iff he ht).mp hp
  · rintro rfl
    exact ⟨_, List.mem_append_right [ascii "create", ascii "remove", ascii "state"]
      (List.mem_singleton_self _), List.prefix_refl _⟩

variable (w : World)

theorem act_digest (t held deleted : Bytes) (r : Replica) :
    partsFor (part (Source.digest t held deleted) 0) =
        some (Source.digest t held deleted).length ∧
      ∃ message, act w (Source.digest t held deleted) r =
        .ok (r, .ok { verb := ascii "digest", message := message }) := by
  have hverb : verbOf (part (Source.digest t held deleted) 0) = ascii "digest" := by rfl
  have hparts := partsFor_of_verbOf hverb (show (ascii "digest", 3) ∈ verbs by decide)
  obtain ⟨-, message, hact⟩ := act_left (w := w) (r := r) hverb (by decide) rfl (by decide)
    (by decide)
  exact ⟨hparts, message, hact⟩

/-- An addressed digest reaches its addressee and nobody else, the broadcast
verbs reach everyone, and what is delivered is read as a digest. -/
theorem digest_addressed {e t : Bytes} (he : nul ∉ e) (ht : nul ∉ t) (held deleted : Bytes) :
    (delivers (subscribe e) (Source.digest t held deleted) = true ↔ e = t) ∧
      (∀ disk file mtime, ∀ v ∈ Source.create w disk file mtime,
        delivers (subscribe e) v = true) ∧
      (∀ file mtime bencoded, delivers (subscribe e) (Source.repair file mtime bencoded) = true) ∧
      (∀ file now, delivers (subscribe e) (Source.remove file now) = true) ∧
      (∀ hashes, delivers (subscribe e) (Source.state w hashes) = true) ∧
      ∀ r, partsFor (part (Source.digest t held deleted) 0) =
          some (Source.digest t held deleted).length ∧
        ∃ message, act w (Source.digest t held deleted) r =
          .ok (r, .ok { verb := ascii "digest", message := message }) := by
  refine ⟨delivers_digest_iff he ht held deleted, ?_, ?_, ?_, ?_, ?_⟩
  · intro disk file mtime v hv
    obtain ⟨found, -, rfl⟩ := Option.map_eq_some_iff.mp hv
    exact delivers_broadcast List.mem_cons_self
  · exact fun file mtime bencoded => delivers_broadcast List.mem_cons_self
  · exact fun file now => delivers_broadcast (List.mem_cons_of_mem _ List.mem_cons_self)
  · exact fun hashes => delivers_broadcast
      (List.mem_cons_of_mem _ (List.mem_cons_of_mem _ List.mem_cons_self))
  · exact fun r => act_digest w t held deleted r

/-- Two ports, one of them spelled as the beginning of the other. -/
theorem digest_addressed_port :
    delivers (subscribe (ascii "tcp://a:555")) (Source.digest (ascii "tcp://a:5555") [] []) =
      false := by
  have h := digest_addressed sampleWorld (e := ascii "tcp://a:555") (t := ascii "tcp://a:5555")
    (by decide) (by decide) [] []
  rw [← Bool.not_eq_true, h.1]
  decide

end SyncFs
