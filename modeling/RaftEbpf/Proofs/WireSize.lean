import Mathlib.Algebra.Ring.Nat
import RaftEbpf.Network

/-!
# `RaftEbpf.Proofs.WireSize`: how long an envelope can get

A bound for each form of JSON, and from the capacities of the wire types one for each message. The
longest message is an `AppendEntries` with 64 entries. `length_toVec_le` says that no envelope is
longer than a receiver takes.
-/

set_option autoImplicit false

namespace RaftEbpf

open RaftEbpf.Lib (Utf8.bytes)

namespace Wire

theorem length_num_le {n k : Nat} (hk : 0 < k) (h : n < 10 ^ k) : (num n).length ≤ k := by
  rw [num, List.length_map]
  exact (Nat.length_toDigits_le_iff (by decide) hk).mpr h

/-- A `u64` has at most twenty digits. -/
theorem length_num_u64 {n : Nat} (h : n ≤ u64Max) : (num n).length ≤ 20 :=
  length_num_le (by decide) (by unfold u64Max at h; omega)

/-- A byte becomes six at most: `\u001f`. -/
theorem length_escape_le (b : UInt8) : (escape b).length ≤ 6 := by
  unfold escape
  split
  case h_8 =>
    split
    · exact Nat.le_refl 6
    · exact Nat.le_add_left 1 5
  all_goals decide

theorem length_flatMap_escape (bs : List UInt8) : (bs.flatMap escape).length ≤ 6 * bs.length := by
  induction bs with
  | nil => exact Nat.le_refl 0
  | cons b bs ih =>
      have hb := length_escape_le b
      rw [List.flatMap_cons, List.length_append, List.length_cons]
      omega

theorem length_str_le (s : String) : (str s).length ≤ 6 * s.utf8ByteSize + 2 := by
  have h := length_flatMap_escape (Utf8.bytes s)
  rw [Lib.Utf8.length_bytes] at h
  rw [str, List.length_cons, List.length_append, List.length_singleton]
  omega

/-- A bounded string. -/
theorem length_str_heapless {cap : Nat} (s : HeaplessString cap) :
    (str s.asStr).length ≤ 6 * cap + 2 := by
  have h := length_str_le s.asStr
  have hfits := s.fits
  omega

theorem length_commaSep_le (items : List (List UInt8)) :
    (commaSep items).length ≤ (items.map fun item => item.length + 1).sum := by
  induction items with
  | nil => exact Nat.le_refl 0
  | cons item rest ih =>
      rw [List.map_cons, List.sum_cons]
      cases rest with
      | nil =>
          show item.length ≤ _
          omega
      | cons item' rest =>
          rw [commaSep, List.length_append, List.length_cons]
          · omega
          · nofun

/-- An array of items that are no longer than `bound`. -/
theorem length_arr_le {items : List (List UInt8)} {bound : Nat}
    (h : ∀ item ∈ items, item.length ≤ bound) :
    (arr items).length ≤ items.length * (bound + 1) + 2 := by
  have hsum : (items.map fun item => item.length + 1).sum ≤ items.length * (bound + 1) := by
    induction items with
    | nil => exact Nat.zero_le _
    | cons item items ih =>
        have hitem := h item List.mem_cons_self
        have hitems := ih fun i hi => h i (List.mem_cons_of_mem _ hi)
        rw [List.map_cons, List.sum_cons, List.length_cons, Nat.succ_mul]
        omega
  have hsep := length_commaSep_le items
  rw [arr, List.length_cons, List.length_append, List.length_singleton]
  omega

/-- An object. No name has more than 21 bytes: `AppendEntriesResponse`. -/
theorem length_obj_le {fields : List (String × List UInt8)} {bound : Nat}
    (hnames : ∀ name ∈ fields.map Prod.fst, name.utf8ByteSize ≤ 21)
    (hbound : (fields.map fun f => f.2.length + 130).sum + 2 ≤ bound) :
    (obj fields).length ≤ bound := by
  have hsum : ((fields.map fun f => str f.1 ++ 58 :: f.2).map fun item => item.length + 1).sum ≤
      (fields.map fun f => f.2.length + 130).sum := by
    clear hbound
    induction fields with
    | nil => exact Nat.le_refl 0
    | cons f fields ih =>
        have hname := hnames f.1 List.mem_cons_self
        have hstr := length_str_le f.1
        have hrest := ih fun name hmem => hnames name (List.mem_cons_of_mem _ hmem)
        simp only [List.map_cons, List.sum_cons, List.length_append, List.length_cons]
        omega
  have hsep := length_commaSep_le (fields.map fun f => str f.1 ++ 58 :: f.2)
  rw [obj, List.length_cons, List.length_append, List.length_singleton]
  omega

/-- A variant with its fields. -/
theorem length_variant_le {name : String} {fields : List UInt8} {bound : Nat}
    (hname : name.utf8ByteSize ≤ 21) (hbound : fields.length + 132 ≤ bound) :
    (obj [(name, fields)]).length ≤ bound := by
  apply length_obj_le
  · intro name' hmem
    obtain rfl := List.mem_singleton.mp hmem
    exact hname
  · show fields.length + 130 + 0 + 2 ≤ bound
    omega

theorem length_bool_le (b : Bool) : (bool b).length ≤ 5 := by
  cases b with
  | false => decide
  | true => decide

/-- A vector of bytes: at most three digits for each. -/
theorem length_bytes_le {cap : Nat} (v : HeaplessVec cap UInt8) :
    (bytes v).length ≤ cap * 4 + 2 := by
  have hitems : ∀ item ∈ v.toVec.map fun b => num b.toNat, item.length ≤ 3 := by
    intro item hitem
    obtain ⟨b, -, rfl⟩ := List.mem_map.mp hitem
    exact length_num_le (by decide) (Nat.lt_trans b.toNat_lt (by decide))
  have h := length_arr_le hitems
  have hfits := v.fits
  rw [List.length_map] at h
  rw [bytes]
  omega

theorem length_option_le {α : Type} {toVec : α → List UInt8} {bound : Nat}
    (h : ∀ a, (toVec a).length ≤ bound) (hbound : 4 ≤ bound) (v : Option α) :
    (option toVec v).length ≤ bound := by
  cases v with
  | none =>
      have hnull : (Utf8.bytes "null").length = 4 := by decide
      rw [option, hnull]
      exact hbound
  | some a => exact h a

end Wire

open Wire

/-! ### The messages -/

theorem Command.length_toVec_le (c : Command) : c.toVec.length ≤ 6030 := by
  cases c with
  | put key value =>
      have hkey := length_str_heapless key
      have hvalue := length_bytes_le value
      apply length_variant_le
      · decide
      · have hfields : (obj [("key", str key.asStr), ("value", bytes value)]).length ≤ 5898 := by
          apply length_obj_le
          · show ∀ name ∈ ["key", "value"], name.utf8ByteSize ≤ 21
            decide
          · simp only [List.map_cons, List.map_nil, List.sum_cons, List.sum_nil]
            omega
        omega
  | delete key =>
      have hkey := length_str_heapless key
      apply length_variant_le
      · decide
      · have hfields : (obj [("key", str key.asStr)]).length ≤ 1670 := by
          apply length_variant_le
          · decide
          · omega
        omega
  | noop =>
      have hname : "Noop".utf8ByteSize = 4 := by decide
      have h := length_str_le "Noop"
      show (str "Noop").length ≤ 6030
      omega

theorem LogEntry.length_toVec_le {e : LogEntry} (h : e.InRange) : e.toVec.length ≤ 6462 := by
  have hindex := length_num_u64 h.1
  have hterm := length_num_u64 h.2
  have hcommand := e.command.length_toVec_le
  apply length_obj_le
  · show ∀ name ∈ ["index", "term", "command"], name.utf8ByteSize ≤ 21
    decide
  · simp only [List.map_cons, List.map_nil, List.sum_cons, List.sum_nil]
    omega

/-- The longest message: most of it are the 64 entries. -/
theorem AppendEntriesRequest.length_toVec_le {req : AppendEntriesRequest}
    (h : (RaftMessage.appendEntries req).InRange) : req.toVec.length ≤ 414882 := by
  obtain ⟨hterm, hprev, hprevTerm, hcommit, hentries⟩ := h
  have hterm := length_num_u64 hterm
  have hprev := length_num_u64 hprev
  have hprevTerm := length_num_u64 hprevTerm
  have hcommit := length_num_u64 hcommit
  have hleader := length_str_heapless req.leaderId
  have hitems : ∀ item ∈ req.entries.toVec.map LogEntry.toVec, item.length ≤ 6462 := by
    intro item hitem
    obtain ⟨e, he, rfl⟩ := List.mem_map.mp hitem
    exact LogEntry.length_toVec_le (hentries e he)
  have harr := length_arr_le hitems
  have hfits := req.entries.fits
  rw [List.length_map] at harr
  apply length_obj_le
  · show ∀ name ∈ ["term", "leader_id", "prev_log_index", "prev_log_term", "entries",
      "leader_commit"], name.utf8ByteSize ≤ 21
    decide
  · simp only [List.map_cons, List.map_nil, List.sum_cons, List.sum_nil]
    omega

theorem AppendEntriesResponse.length_toVec_le {resp : AppendEntriesResponse}
    (h : (RaftMessage.appendEntriesResponse resp).InRange) : resp.toVec.length ≤ 1000 := by
  have hterm := length_num_u64 h.1
  have hlast := length_num_u64 h.2
  have hsuccess := length_bool_le resp.success
  have hnode := length_str_heapless resp.nodeId
  apply length_obj_le
  · show ∀ name ∈ ["term", "success", "last_log_index", "node_id"], name.utf8ByteSize ≤ 21
    decide
  · simp only [List.map_cons, List.map_nil, List.sum_cons, List.sum_nil]
    omega

theorem RequestVoteRequest.length_toVec_le {req : RequestVoteRequest}
    (h : (RaftMessage.requestVote req).InRange) : req.toVec.length ≤ 1000 := by
  obtain ⟨hterm, hlast, hlastTerm⟩ := h
  have hterm := length_num_u64 hterm
  have hlast := length_num_u64 hlast
  have hlastTerm := length_num_u64 hlastTerm
  have hid := length_str_heapless req.candidateId
  apply length_obj_le
  · show ∀ name ∈ ["term", "candidate_id", "last_log_index", "last_log_term"],
      name.utf8ByteSize ≤ 21
    decide
  · simp only [List.map_cons, List.map_nil, List.sum_cons, List.sum_nil]
    omega

theorem RequestVoteResponse.length_toVec_le {resp : RequestVoteResponse}
    (h : (RaftMessage.requestVoteResponse resp).InRange) : resp.toVec.length ≤ 1000 := by
  have hterm := length_num_u64 h
  have hgranted := length_bool_le resp.voteGranted
  have hnode := length_str_heapless resp.nodeId
  apply length_obj_le
  · show ∀ name ∈ ["term", "vote_granted", "node_id"], name.utf8ByteSize ≤ 21
    decide
  · simp only [List.map_cons, List.map_nil, List.sum_cons, List.sum_nil]
    omega

theorem ClientRequest.length_toVec_le {req : ClientRequest}
    (h : (RaftMessage.clientRequest req).InRange) : req.toVec.length ≤ 6312 := by
  have hid := length_num_u64 h
  have hcommand := req.command.length_toVec_le
  apply length_obj_le
  · show ∀ name ∈ ["request_id", "command"], name.utf8ByteSize ≤ 21
    decide
  · simp only [List.map_cons, List.map_nil, List.sum_cons, List.sum_nil]
    omega

theorem ClientResponse.length_toVec_le {resp : ClientResponse}
    (h : (RaftMessage.clientResponse resp).InRange) : resp.toVec.length ≤ 6699 := by
  have hid := length_num_u64 h
  have hsuccess := length_bool_le resp.success
  have hdata := length_option_le length_bytes_le (by decide) resp.data
  have herror := length_option_le length_str_heapless (by decide) resp.error
  have hleader := length_option_le length_str_heapless (by decide) resp.leaderId
  apply length_obj_le
  · show ∀ name ∈ ["success", "request_id", "data", "error", "leader_id"], name.utf8ByteSize ≤ 21
    decide
  · simp only [List.map_cons, List.map_nil, List.sum_cons, List.sum_nil]
    omega

/-- A message without the two ids around it. -/
theorem RaftMessage.length_toVec_le {m : RaftMessage} (h : m.InRange) :
    m.toVec.length ≤ 415014 := by
  cases m with
  | appendEntries req =>
      have hreq := AppendEntriesRequest.length_toVec_le h
      exact length_variant_le (by decide) (by omega)
  | appendEntriesResponse resp =>
      have hresp := AppendEntriesResponse.length_toVec_le h
      exact length_variant_le (by decide) (by omega)
  | requestVote req =>
      have hreq := RequestVoteRequest.length_toVec_le h
      exact length_variant_le (by decide) (by omega)
  | requestVoteResponse resp =>
      have hresp := RequestVoteResponse.length_toVec_le h
      exact length_variant_le (by decide) (by omega)
  | clientRequest req =>
      have hreq := ClientRequest.length_toVec_le h
      exact length_variant_le (by decide) (by omega)
  | clientResponse resp =>
      have hresp := ClientResponse.length_toVec_le h
      exact length_variant_le (by decide) (by omega)

/-- Every envelope is short enough for a receiver. -/
theorem MessageEnvelope.length_toVec_le {env : MessageEnvelope} (h : env.InRange) :
    env.toVec.length ≤ Network.maxMessageSize := by
  have hsender := length_str_heapless env.sender
  have hrecipient := length_str_heapless env.recipient
  have hmessage := RaftMessage.length_toVec_le h
  have hmax : Network.maxMessageSize = 1048576 := by decide
  apply length_obj_le
  · show ∀ name ∈ ["from", "to", "message"], name.utf8ByteSize ≤ 21
    decide
  · simp only [List.map_cons, List.map_nil, List.sum_cons, List.sum_nil]
    omega

end RaftEbpf
