import EphemeralOS.Net.Answers
import EphemeralOS.Net.Calls

/-!
# Queries

`dns_resolve` writes the host name into its buffer byte by byte, and the length
of a label into the byte that it has kept free for it, when it comes to the dot
behind the label or to the end (`qnameLoop`). What it builds is the query for
the labels of the host name (`query_encoding`).
-/

namespace EphemeralOS

open Binary Dns

/-- The loop of `dns_resolve` over the host name: the next byte is written at `qname`, the length of
the label at `label_len_ptr`. It returns the buffer and the offset behind the zero. -/
def qnameLoop : List UInt8 → Memory → Nat → Nat → UInt8 → Memory × Nat
  | [], query, qname, labelLenPtr, labelLen =>
    ((query.store labelLenPtr [labelLen]).store qname [0], qname + 1)
  | c :: hostname, query, qname, labelLenPtr, labelLen =>
    if c = 0x2E then qnameLoop hostname (query.store labelLenPtr [labelLen]) (qname + 1) qname 0
    else qnameLoop hostname (query.store qname [c]) (qname + 1) labelLenPtr (labelLen + 1)

/-- The statements of `dns_resolve` that fill its buffer, and `query_length`. -/
def buildQuery (id : UInt16) (hostname : List UInt8) (query : Memory) : Memory × UInt16 :=
  let query := query.store 0 (dnsHeaderLayout.enc ⟨htons id, htons dnsFlagRd, htons 1, 0, 0, 0⟩)
  let (query, qname) := qnameLoop hostname query 13 12 0
  let query := query.store qname (Layout.word16.enc (htons dnsQueryTypeA))
  let query := query.store (qname + 2) (Layout.word16.enc (htons dnsClassIn))
  (query, UInt16.ofNat (qname + 4))

@[simp] theorem length_qname (hostname label : List UInt8) :
    (qname hostname label).length = hostname.length + label.length + 2 := by
  induction hostname generalizing label with
  | nil => simp [qname]
  | cons c hostname ih =>
    rw [qname]
    split
    · rw [List.cons_append, List.length_cons, List.length_append, ih, List.length_cons,
        List.length_nil]
      omega
    · rw [ih, List.length_append, List.length_singleton, List.length_cons]
      omega

/-- The bytes `l` have been written at `p`, up to the cursor, and nothing before `p`. -/
structure Filled (m : Memory) (p : Nat) (l : List UInt8) (r : Memory × Nat) : Prop where
  stands : r.1.Stands p l
  cursor : r.2 = p + l.length
  before : ∀ a < p, r.1 a = m a

theorem stands_patch {m : Memory} {p : Nat} {label : List UInt8} (h : m.Stands (p + 1) label) :
    (m.store p [UInt8.ofNat label.length]).Stands p (UInt8.ofNat label.length :: label) :=
  Memory.stands_append (l := [_]).mpr ⟨Memory.stands_store _ _ _, h.store (.inl (by simp))⟩

/-- **The loop fills in what `qname` says**, when `label` has been written behind the byte kept free
for its length. -/
theorem qnameLoop_filled (hostname : List UInt8) (m : Memory) (p : Nat) (label : List UInt8)
    (h : m.Stands (p + 1) label) : Filled m p (qname hostname label)
      (qnameLoop hostname m (p + 1 + label.length) p (UInt8.ofNat label.length)) := by
  induction hostname generalizing m p label with
  | nil =>
    rw [qnameLoop, qname]
    refine ⟨Memory.stands_append.mpr ⟨(stands_patch h).store (.inr ?_), ?_⟩, ?_, fun a ha => ?_⟩
    · rw [List.length_cons]
      omega
    · rw [List.length_cons, show p + (label.length + 1) = p + 1 + label.length by omega]
      exact Memory.stands_store _ _ _
    · rw [List.length_append, List.length_cons, List.length_singleton]
      omega
    · change Memory.store _ _ _ a = _
      rw [store_apply, if_neg (by omega), store_apply, if_neg (by omega)]
  | cons c hostname ih =>
    rw [qnameLoop, qname]
    split
    · have hrest : Filled (m.store p [UInt8.ofNat label.length]) (p + 1 + label.length)
          (qname hostname []) (qnameLoop hostname (m.store p [UInt8.ofNat label.length])
            (p + 1 + label.length + 1) (p + 1 + label.length) 0) := ih _ _ [] rfl
      refine ⟨Memory.stands_append.mpr ⟨?_, ?_⟩, ?_, fun a ha => ?_⟩
      · refine (stands_patch h).congr fun a _ ha => hrest.before a ?_
        rw [List.length_cons] at ha
        omega
      · rw [List.length_cons, show p + (label.length + 1) = p + 1 + label.length by omega]
        exact hrest.stands
      · rw [hrest.cursor, List.length_append, List.length_cons]
        omega
      · rw [hrest.before a (by omega), store_apply, if_neg (by omega)]
    · have hlabel : (m.store (p + 1 + label.length) [c]).Stands (p + 1) (label ++ [c]) :=
        Memory.stands_append.mpr ⟨h.store (.inr (Nat.le_refl _)), Memory.stands_store _ _ _⟩
      have hrest := ih _ p _ hlabel
      rw [List.length_append, List.length_singleton, UInt8.ofNat_add, ← Nat.add_assoc] at hrest
      refine ⟨hrest.stands, hrest.cursor, fun a ha => (hrest.before a ha).trans ?_⟩
      rw [store_apply, if_neg (by omega)]

/-- **The buffer holds the query**, and `query_length` is its length. -/
theorem buildQuery_stands (id : UInt16) (hostname : List UInt8) (query : Memory) :
    (buildQuery id hostname query).1.Stands 0 (dnsQuery id hostname) ∧
      (buildQuery id hostname query).2 = UInt16.ofNat (dnsQuery id hostname).length := by
  let header := dnsHeaderLayout.enc ⟨htons id, htons dnsFlagRd, htons 1, 0, 0, 0⟩
  let fields := Layout.word16.enc (htons dnsQueryTypeA) ++ Layout.word16.enc (htons dnsClassIn)
  have hname : Filled (query.store 0 header) 12 (qname hostname [])
      (qnameLoop hostname (query.store 0 header) 13 12 0) := qnameLoop_filled hostname _ 12 [] rfl
  generalize hr : qnameLoop hostname (query.store 0 header) 13 12 0 = r at hname
  have hquery : dnsQuery id hostname = (header ++ qname hostname []) ++ fields :=
    List.append_assoc _ _ _
  have hbuilt : buildQuery id hostname query = (r.1.store r.2 fields, UInt16.ofNat (r.2 + 4)) := by
    rw [← hr, store_append]
    rfl
  have hheader : r.1.Stands 0 header :=
    (Memory.stands_store query 0 header).congr fun a _ ha => hname.before a (by
      change a < 0 + 12 at ha
      omega)
  have hlen : (header ++ qname hostname []).length = r.2 := by
    rw [hname.cursor, List.length_append]
    rfl
  rw [hbuilt, hquery, List.length_append, hlen]
  refine ⟨Memory.stands_append.mpr ⟨?_, ?_⟩, rfl⟩
  · exact (Memory.stands_append.mpr ⟨hheader, hname.stands⟩).store (.inr (by omega))
  · rw [hlen, Nat.zero_add]
    exact Memory.stands_store _ _ _

/-! ## Host names -/

/-- A host name: labels without a zero and without a dot, with dots between them. -/
structure HostName where
  labels : List Label
  nonempty : labels ≠ []
  plain : ∀ l ∈ labels, ∀ c ∈ l.bytes, c ≠ 0 ∧ c ≠ 0x2E
  le : (List.intercalate [0x2E] (labels.map Label.bytes)).length ≤ 253

def HostName.text (host : HostName) : List UInt8 :=
  List.intercalate [0x2E] (host.labels.map Label.bytes)

def HostName.query (host : HostName) (id : UInt16) : Query := ⟨id, ⟨host.labels, .root⟩, 1, 1⟩

theorem qname_plain {l : List UInt8} (h : ∀ c ∈ l, c ≠ 0x2E) (hostname label : List UInt8) :
    qname (l ++ hostname) label = qname hostname (label ++ l) := by
  induction l generalizing label with
  | nil => rw [List.nil_append, List.append_nil]
  | cons c l ih =>
    rw [List.cons_append, qname, if_neg (h c List.mem_cons_self),
      ih (fun d hd => h d (List.mem_cons_of_mem c hd)), List.append_assoc]
    rfl

theorem qname_labels {ls : List Label} (hne : ls ≠ [])
    (h : ∀ l ∈ ls, ∀ c ∈ l.bytes, c ≠ 0 ∧ c ≠ 0x2E) :
    qname (List.intercalate [0x2E] (ls.map Label.bytes)) [] = ls.flatMap Label.wire ++ [0] := by
  induction ls with
  | nil => exact absurd rfl hne
  | cons l ls ih =>
    have hl : ∀ c ∈ l.bytes, c ≠ 0x2E := fun c hc => (h l List.mem_cons_self c hc).2
    cases ls with
    | nil =>
      have hqname := qname_plain hl [] []
      rw [List.append_nil, List.nil_append] at hqname
      rw [List.map_singleton, List.intercalate_singleton, hqname, qname, List.flatMap_singleton]
      rfl
    | cons l' ls =>
      have hrest := ih (List.cons_ne_nil _ _) fun k hk => h k (List.mem_cons_of_mem l hk)
      rw [List.map_cons] at hrest
      rw [List.map_cons, List.map_cons, List.intercalate_cons_cons, List.append_assoc,
        qname_plain hl, List.nil_append, List.singleton_append, qname, if_pos rfl, hrest]
      exact (List.append_assoc l.wire _ [0]).symm

/-- **What `dns_resolve` sends is the query for the labels.** -/
theorem dnsQuery_eq (host : HostName) (id : UInt16) :
    dnsQuery id host.text = (host.query id).wire := by
  have hheader : (host.query id).header =
      dnsHeaderLayout.enc ⟨htons id, htons dnsFlagRd, htons 1, 0, 0, 0⟩ := by
    simp only [Query.header, be16_eq]
    rfl
  rw [dnsQuery, HostName.text, qname_labels host.nonempty host.plain, Query.wire, hheader,
    Question.wire, be16_eq, be16_eq, List.append_assoc, List.append_assoc]
  rfl

theorem length_dnsQuery (host : HostName) (id : UInt16) :
    (host.query id).wire.length = 12 + (host.text.length + 2) + 4 := by
  rw [← dnsQuery_eq, dnsQuery]
  simp only [List.length_append, length_qname]
  rfl

theorem wire_drop (host : HostName) (id : UInt16) : (host.query id).wire.drop 12 =
    host.labels.flatMap Label.wire ++ 0 :: (be16 dnsQueryTypeA ++ be16 dnsClassIn) := by
  have hheader : (host.query id).wire.drop 12 = (host.query id).question.wire :=
    List.drop_left' rfl
  rw [hheader, Question.wire]
  exact List.append_assoc _ [0] _

/-- **A query asks for the host name.** With a host name that is not an address, `dns_resolve` sends
a recursive query for its labels out of a buffer of 512 bytes, and the loop of the response handler
finds the end of the question at the end of the query. -/
theorem query_encoding (host : HostName) (hname : isIpAddress host.text = false) (s : NetState) :
    ∃ query, query = (host.query s.dnsTransactionId).wire ∧
      (dnsResolve host.text s).2 = pollUntil (·.resolutionComplete) dnsTimeoutMs
        (udpSend ethReceiveFrame s.dnsServer 12345 dnsPort query (dnsReset s)) ∧
      (∀ buffer, (buildQuery s.dnsTransactionId host.text buffer).1.Stands 0 query ∧
        (buildQuery s.dnsTransactionId host.text buffer).2.toNat = query.length) ∧
      decodeLabels (query.drop 12) =
        some (host.labels.map Label.bytes, be16 dnsQueryTypeA ++ be16 dnsClassIn) ∧
      query.length = 12 + (host.text.length + 2) + 4 ∧ query.length ≤ 512 ∧
      ∀ data : Memory, data.Stands 0 query →
        (afterName data query.length 12).map (· + 4) = some query.length := by
  have hlen := length_dnsQuery host s.dnsTransactionId
  have hle : host.text.length ≤ 253 := host.le
  refine ⟨_, rfl, ?_, fun buffer => ?_, ?_, hlen, by omega, fun data h => ?_⟩
  · rw [dnsResolve, hname, ← dnsQuery_eq]
    rfl
  · obtain ⟨hstands, hlength⟩ := buildQuery_stands s.dnsTransactionId host.text buffer
    rw [dnsQuery_eq] at hstands hlength
    refine ⟨hstands, ?_⟩
    rw [hlength, UInt16.toNat_ofNat']
    omega
  · rw [wire_drop, decodeLabels_wire]
  · have hquestion : data.Stands 12 (host.query s.dnsTransactionId).question.wire :=
      (Memory.stands_append.mp h).2
    have hwire := length_query (host.query s.dnsTransactionId)
    have hroot : ¬ Stray (host.query s.dnsTransactionId).question.name 1 := fun hs => hs.1 rfl
    rw [(afterName_wire hquestion (by omega)).1 hroot, hwire]
    rfl

/-- The host `os.org`. -/
def sampleHost : HostName :=
  ⟨sampleName.labels, List.cons_ne_nil _ _, by decide +kernel, by decide +kernel⟩

/-- The query for `os.org` has 24 bytes. -/
theorem sampleHost_query : isIpAddress sampleHost.text = false ∧
    ∃ query, query = (sampleHost.query 1).wire ∧ query.length = 24 ∧
      decodeLabels (query.drop 12) = some ([ascii "os", ascii "org"], [0, 1, 0, 1]) := by
  have haddress : isIpAddress sampleHost.text = false := by decide +kernel
  obtain ⟨query, hquery, -, -, hlabels, hlength, -⟩ :=
    query_encoding sampleHost haddress (NetState.static true CArray.zero)
  exact ⟨haddress, query, hquery, hlength, hlabels⟩

end EphemeralOS
