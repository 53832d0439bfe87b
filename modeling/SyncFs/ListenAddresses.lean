import SyncFs.CharConversions

/-!
# The listen address and the endpoint published from it

Two parsers read the same argument: the check at startup, off the last colon,
and `parse_host_port`, off the first two tokens. What a node publishes is
rendered again from the second.
-/

namespace SyncFs.ListenAddresses

open CharConversions

def colon : UInt8 := 58

/-- What escapes `parse_host_port`: its own refusal of an empty host, the
missing second token, and the two exceptions of `std::stoi`. -/
inductive Thrown | invalidArgument | outOfRange
  deriving DecidableEq

def intMin : ℤ := -2 ^ 31
def intMax : ℤ := 2 ^ 31 - 1

def parseHostPort (s : Bytes) : Except Thrown (Bytes × ℤ) :=
  match s.splitOn colon with
  | [] => .error .outOfRange
  | host :: rest =>
    if host = [] then .error .invalidArgument
    else match rest with
      | [] => .error .outOfRange
      | port :: _ => match stoi intMin intMax port with
        | .ok n => .ok (host, n)
        | .error .invalidArgument => .error .invalidArgument
        | .error .resultOutOfRange => .error .outOfRange

def rfind (c : UInt8) (s : Bytes) : Option ℕ :=
  (s.reverse.idxOf? c).map (s.length - 1 - ·)

def dropBrackets (host : Bytes) : Bytes :=
  let opened := if host.head? = some 91 then host.drop 1 else host
  if opened.getLast? = some 93 then opened.dropLast else opened

def hostOf (addr : Bytes) : Bytes :=
  dropBrackets (match rfind colon addr with
    | none => addr
    | some i => addr.take i)

def portOf (addr : Bytes) : Option Bytes :=
  (rfind colon addr).map fun i => addr.drop (i + 1)

/-- The host names whatever address is here, or is the wildcard of the wire. -/
def anywhere (host : Bytes) : Bool :=
  host == ascii "*" || host.all fun c => c == 48 || c == 46 || c == 58

def highest : ℤ := 65535 - 2000

def checkListenAddress (addr : Bytes) : Except Bytes Unit :=
  if anywhere (hostOf addr) then
    .error (ascii "\"" ++ hostOf addr ++ ascii
      "\" names no one host, and this address is what peers address their digests to as well as what the publisher binds")
  else match portOf addr with
    | none => .error (ascii "\"" ++ addr ++ ascii "\" carries no port")
    | some port =>
      if port = [] then .error (ascii "\"" ++ addr ++ ascii "\" carries no port")
      else match fromChars intMin intMax port with
        | .ok (number, []) =>
          if number < 1 ∨ number > highest then
            .error (ascii "port " ++ printInt number ++ ascii " is outside 1-" ++
              printInt highest ++ ascii ", and libtorrent listens 2000 above it")
          else .ok ()
        | _ => .error (ascii "\"" ++ port ++ ascii "\" is not a port number")

def checkedPort (addr : Bytes) : Option ℤ :=
  (portOf addr).bind fun port => match fromChars intMin intMax port with
    | .ok (number, []) => some number
    | _ => none

/-- The narrowing `main` hands the port to the sync loop with. -/
def unsignedShort (n : ℤ) : ℕ := (n % 65536).toNat

/-- What `main` binds and what the digest subscription frames. -/
def myAddress (arg : Bytes) : Bytes := ascii "tcp://" ++ arg

def endpoint (localAddr : Bytes) (localPort : ℕ) : Bytes :=
  ascii "tcp://" ++ localAddr ++ ascii ":" ++ printNat localPort

/-- The address parses to the port that was checked, with room for the
data plane above it, and is published byte for byte as it is listened under. -/
def PublishesItself (addr : Bytes) : Prop :=
  ∃ h n, parseHostPort addr = .ok (h, n) ∧ checkedPort addr = some n ∧
    0 < n ∧ n + 2000 < 65536 ∧ endpoint h (unsignedShort n) = myAddress addr

theorem rfind_append {c : UInt8} {a b : Bytes} (h : c ∉ b) :
    rfind c (a ++ c :: b) = some a.length := by
  have hi : (b.reverse ++ c :: a.reverse).idxOf? c = some b.length := by
    rw [List.idxOf?_eq_some_iff]
    refine ⟨by simp, by simp, ?_⟩
    intro j hj
    rw [List.getElem_append_left (by simpa using hj)]
    intro he
    exact h (List.mem_reverse.mp (he ▸ List.getElem_mem _))
  rw [rfind]
  simp only [List.reverse_append, List.reverse_cons, List.append_assoc, List.cons_append,
    List.nil_append, hi, Option.map_some, List.length_append, List.length_cons]
  congr 1
  omega

theorem portOf_append {a b : Bytes} (h : colon ∉ b) : portOf (a ++ colon :: b) = some b := by
  rw [portOf, rfind_append h, Option.map_some]
  have hl : (a ++ colon :: b).drop (a.length + 1) = b := by
    rw [← List.drop_drop, List.drop_left, List.drop_one, List.tail_cons]
  rw [hl]

theorem hostOf_append {a b : Bytes} (h : colon ∉ b) :
    hostOf (a ++ colon :: b) = dropBrackets a := by
  rw [hostOf, rfind_append h]
  simp

theorem colon_mem_of_portOf {addr port : Bytes} (h : portOf addr = some port) : colon ∈ addr := by
  obtain ⟨i, hi, -⟩ := Option.map_eq_some_iff.mp h
  obtain ⟨j, hj, -⟩ := Option.map_eq_some_iff.mp hi
  obtain ⟨hl, he, -⟩ := List.idxOf?_eq_some_iff.mp hj
  exact List.mem_reverse.mp (he ▸ List.getElem_mem hl)

theorem checkListenAddress_ok {addr : Bytes} (h : checkListenAddress addr = .ok ()) :
    anywhere (hostOf addr) = false ∧ ∃ port n, portOf addr = some port ∧
      fromChars intMin intMax port = .ok (n, []) ∧ 0 < n ∧ n ≤ highest := by
  rw [checkListenAddress] at h
  split at h
  · cases h
  next hh =>
  refine ⟨by simpa using hh, ?_⟩
  split at h
  · cases h
  next port hp =>
  split at h
  · cases h
  split at h
  next n hn =>
    split at h
    · cases h
    next hr => exact ⟨port, n, hp, hn, by omega, by omega⟩
  · cases h

theorem parseHostPort_append {a b : Bytes} (ha : colon ∉ a) :
    parseHostPort (a ++ colon :: b) =
      if a = [] then .error .invalidArgument
      else match stoi intMin intMax ((b.splitOn colon).head (List.splitOn_ne_nil colon b)) with
        | .ok n => .ok (a, n)
        | .error .invalidArgument => .error .invalidArgument
        | .error .resultOutOfRange => .error .outOfRange := by
  rw [parseHostPort, List.splitOn_append_cons_self_of_not_mem ha]
  obtain ⟨p, ps, hp⟩ := List.exists_cons_of_ne_nil (List.splitOn_ne_nil colon b)
  simp only [hp, List.head_cons]

/-- Two renderings with the same prefix agree exactly when host and port do. -/
theorem endpoint_eq_iff {a b : Bytes} {n : ℕ} :
    endpoint a n = myAddress (a ++ colon :: b) ↔ printNat n = b := by
  have hc : ascii ":" = [colon] := by decide
  simp [endpoint, myAddress, hc]

theorem colon_notMem_printNat (n : ℕ) : colon ∉ printNat n := by
  intro h
  exact absurd (isDigit_of_mem_printNat h) (by decide)

theorem unsignedShort_of_le {n : ℤ} (h0 : 0 < n) (h : n ≤ highest) :
    (unsignedShort n : ℤ) = n := by
  rw [highest] at h
  rw [unsignedShort]
  omega

theorem anywhere_nil : anywhere (dropBrackets []) = true := by decide

theorem plain_of_endpoint_eq {a b port host : Bytes} {n m : ℤ} (ha : colon ∉ a)
    (hport : portOf (a ++ colon :: b) = some port)
    (hn : fromChars intMin intMax port = .ok (n, [])) (h0 : 0 < n)
    (hparse : parseHostPort (a ++ colon :: b) = .ok (host, m))
    (hend : endpoint host (unsignedShort m) = myAddress (a ++ colon :: b)) :
    (a ++ colon :: b).count colon = 1 ∧
      (portOf (a ++ colon :: b)).bind List.head? ≠ some zero := by
  rw [parseHostPort_append ha] at hparse
  split at hparse
  · cases hparse
  split at hparse
  · simp only [Except.ok.injEq, Prod.mk.injEq] at hparse
    obtain ⟨rfl, -⟩ := hparse
    have hb := endpoint_eq_iff.mp hend
    have hcb : colon ∉ b := hb ▸ colon_notMem_printNat _
    refine ⟨by simp [List.count_append, List.count_eq_zero_of_not_mem, ha, hcb], ?_⟩
    rw [portOf_append hcb] at hport
    obtain rfl := Option.some.inj hport
    rw [portOf_append hcb, Option.bind_some, ← hb]
    refine head_printNat_ne_zero fun hz => ?_
    rw [hz] at hb
    have hv : (fromChars intMin intMax b).toOption = some ((0 : ℤ), []) := by
      rw [← hb]; decide
    rw [hn] at hv
    simp only [Except.toOption, Option.some.injEq, Prod.mk.injEq] at hv
    omega
  · cases hparse
  · cases hparse

private theorem plain_of_publishesItself {a b port : Bytes} {n : ℤ} (ha : colon ∉ a)
    (hport : portOf (a ++ colon :: b) = some port)
    (hn : fromChars intMin intMax port = .ok (n, [])) (h0 : 0 < n)
    (h : PublishesItself (a ++ colon :: b)) :
    (a ++ colon :: b).count colon = 1 ∧
      (portOf (a ++ colon :: b)).bind List.head? ≠ some zero := by
  obtain ⟨host, m, hparse, -, -, -, hend⟩ := h
  exact plain_of_endpoint_eq ha hport hn h0 hparse hend

/-- Behind a single colon, digits that no zero leads are printed as they were read. -/
theorem publishesItself_of_plain {a b : Bytes} {n : ℤ} (ha : colon ∉ a) (hcb : colon ∉ b)
    (hhost : anywhere (hostOf (a ++ colon :: b)) = false)
    (hn : fromChars intMin intMax b = .ok (n, [])) (h0 : 0 < n) (hhi : n ≤ highest)
    (hzero : b.head? ≠ some zero) : PublishesItself (a ++ colon :: b) := by
  obtain ⟨hne, hdigits, rfl⟩ := fromChars_nonneg hn h0
  have hane : a ≠ [] := by
    rintro rfl
    rw [hostOf_append hcb, anywhere_nil] at hhost
    cases hhost
  have hint : intMin ≤ (value b : ℤ) ∧ (value b : ℤ) ≤ intMax := by
    simp only [intMin, intMax, highest] at *
    omega
  refine ⟨a, value b, ?_, ?_, h0, ?_, ?_⟩
  · rw [parseHostPort_append ha, if_neg hane]
    simp only [List.splitOn_eq_singleton hcb, List.head_cons, stoi_digits hne hdigits hint]
  · rw [checkedPort, portOf_append hcb, Option.bind_some, hn]
  · rw [highest] at hhi
    omega
  · have hs := unsignedShort_of_le h0 hhi
    rw [endpoint_eq_iff, Int.ofNat_inj.mp hs]
    exact printNat_value hne hdigits hzero

/-- An accepted address is published as it is listened under exactly when one
colon stands in it and its port is spelled without a leading zero. -/
theorem publishesItself_iff {addr : Bytes} (h : checkListenAddress addr = .ok ()) :
    PublishesItself addr ↔
      addr.count colon = 1 ∧ (portOf addr).bind List.head? ≠ some zero := by
  obtain ⟨hhost, port, n, hport, hn, h0, hhi⟩ := checkListenAddress_ok h
  obtain ⟨a, b, rfl, ha⟩ := List.eq_append_cons_of_mem (colon_mem_of_portOf hport)
  refine ⟨plain_of_publishesItself ha hport hn h0, ?_⟩
  rintro ⟨hcount, hzero⟩
  have hcb : colon ∉ b := by
    intro hb
    have := List.count_pos_iff.mpr hb
    simp only [List.count_append, List.count_cons_self] at hcount
    omega
  rw [portOf_append hcb] at hport
  obtain rfl := Option.some.inj hport
  rw [portOf_append hcb, Option.bind_some] at hzero
  exact publishesItself_of_plain ha hcb hhost hn h0 hhi hzero

theorem loopback_publishesItself : PublishesItself (ascii "127.0.0.1:5555") :=
  (publishesItself_iff (by decide +kernel)).mpr ⟨by decide +kernel, by decide +kernel⟩

/-- The bracketed loopback address is let through and then cannot be parsed. -/
theorem loopback6_not_publishesItself :
    checkListenAddress (ascii "[::1]:5555") = .ok () ∧
      parseHostPort (ascii "[::1]:5555") = .error .invalidArgument ∧
      ¬ PublishesItself (ascii "[::1]:5555") := by
  have hp : parseHostPort (ascii "[::1]:5555") = .error .invalidArgument := by decide +kernel
  refine ⟨by decide +kernel, hp, ?_⟩
  rintro ⟨h, n, he, -⟩
  rw [hp] at he
  cases he

end SyncFs.ListenAddresses
