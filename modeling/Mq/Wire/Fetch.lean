import Mq.Wire.Kbytes

/-!
# The fetch codecs, on both sides of the replication transport

A broker decodes fetch requests and encodes their responses with the codecs of
`internal/protocol`, which switch on the version.  A follower has an encoder and a
decoder of its own in `internal/replication`, written for one partition and for
version 4.

## Main definitions

* `decodeRequestHeader`, `FetchRequest.decode`, `FetchResponse.encode`,
  `writeResponse` — the broker's side.
* `encodeFetch`, `readFetchResponse` — the follower's side.

## Main results

* `reads_fetchRequest` — the broker reads back what a follower encodes.
* `codecs_agree` — **the follower reads the first partition of any response** whose names and
  whose frame fit their length fields.
* `oversized_response_unreadable` — it cannot read one in which they do not.
-/

namespace Mq
namespace Wire

open Word

/-! ### Headers -/

/-- The header in front of every request. -/
structure RequestHeader where
  apiKey : ℤ
  apiVersion : ℤ
  correlationID : ℤ
  clientID : Option Bytes
  deriving DecidableEq, Repr

def decodeRequestHeader : Read RequestHeader := do
  let apiKey ← int16
  let apiVersion ← int16
  let correlationID ← int32
  let clientID ← nullableString
  pure ⟨apiKey, apiVersion, correlationID, clientID⟩

/-- What `WriteResponseHeader` appends. -/
def putResponseHeader (correlationID : ℤ) : Bytes := putInt32 correlationID

/-- The frame `size | correlation_id | body` of a response. -/
def writeResponse (correlationID : ℤ) (body : Bytes) : Bytes :=
  let payload := putResponseHeader correlationID ++ body
  bePut 4 payload.length ++ payload

/-- A field that the layout has from version `v` on.  It is zero before. -/
def since (version v : ℤ) (m : Read ℤ) : Read ℤ := if v ≤ version then m else pure 0

/-- What an encoder appends from version `v` on. -/
def putSince (version v : ℤ) (b : Bytes) : Bytes := if v ≤ version then b else []

/-! ### Fetch requests -/

/-- One partition of a fetch request. -/
structure FetchPartition where
  partition : ℤ
  fetchOffset : ℤ
  logStartOffset : ℤ
  maxBytes : ℤ
  deriving DecidableEq, Repr

/-- The partitions of one topic. -/
structure FetchTopic where
  name : Bytes
  partitions : List FetchPartition
  deriving DecidableEq, Repr

structure FetchRequest where
  replicaID : ℤ
  maxWaitMs : ℤ
  minBytes : ℤ
  maxBytes : ℤ
  isolationLevel : ℤ
  sessionID : ℤ
  sessionEpoch : ℤ
  topics : List FetchTopic
  deriving DecidableEq, Repr

def FetchPartition.decode (version : ℤ) : Read FetchPartition := do
  let partition ← int32
  -- current_leader_epoch
  let _ ← since version 9 int32
  let fetchOffset ← int64
  let logStartOffset ← since version 5 int64
  let maxBytes ← int32
  pure ⟨partition, fetchOffset, logStartOffset, maxBytes⟩

def FetchTopic.decode (version : ℤ) : Read FetchTopic := do
  let name ← string
  let partitions ← array (FetchPartition.decode version)
  pure ⟨name, partitions⟩

/-- The request body.  What follows the topics from version 7 on is left unread. -/
def FetchRequest.decode (version : ℤ) : Read FetchRequest := do
  let replicaID ← int32
  let maxWaitMs ← int32
  let minBytes ← int32
  let maxBytes ← since version 3 int32
  let isolationLevel ← since version 4 int8
  let sessionID ← since version 7 int32
  let sessionEpoch ← since version 7 int32
  let topics ← array (FetchTopic.decode version)
  pure ⟨replicaID, maxWaitMs, minBytes, maxBytes, isolationLevel, sessionID, sessionEpoch, topics⟩

/-! ### Fetch responses -/

/-- One partition of a fetch response.  There may be no record set. -/
structure FetchPartitionResp where
  partition : ℤ
  errorCode : ℤ
  highWatermark : ℤ
  lastStable : ℤ
  logStartOffset : ℤ
  records : Option Bytes
  deriving DecidableEq, Repr

structure FetchTopicResp where
  name : Bytes
  partitions : List FetchPartitionResp
  deriving DecidableEq, Repr

structure FetchResponse where
  throttleTime : ℤ
  errorCode : ℤ
  sessionID : ℤ
  topics : List FetchTopicResp
  deriving DecidableEq, Repr

def FetchPartitionResp.encode (version : ℤ) (p : FetchPartitionResp) : Bytes :=
  putInt32 p.partition ++ putInt16 p.errorCode ++ putInt64 p.highWatermark
    ++ putSince version 4 (putInt64 p.lastStable)
    ++ putSince version 5 (putInt64 p.logStartOffset)
    -- aborted_transactions, none
    ++ putSince version 4 (putArrayLen 0)
    -- preferred_read_replica
    ++ putSince version 11 (putInt32 (-1))
    ++ putBytes p.records

def FetchTopicResp.encode (version : ℤ) (t : FetchTopicResp) : Bytes :=
  putString t.name ++ putArray (FetchPartitionResp.encode version) t.partitions

def FetchResponse.encode (version : ℤ) (resp : FetchResponse) : Bytes :=
  putSince version 1 (putInt32 resp.throttleTime)
    ++ putSince version 7 (putInt16 resp.errorCode ++ putInt32 resp.sessionID)
    ++ putArray (FetchTopicResp.encode version) resp.topics

/-! ### The follower's side -/

def apiFetch : ℤ := 1
def fetchAPIVersion : ℤ := 4
def fetchMaxWaitMs : ℤ := 500
def fetchMinBytes : ℤ := 1
def fetchMaxBytes : ℤ := 1048576

/-- The client id `mq-replica`. -/
def replicaClientID : Bytes := [109, 113, 45, 114, 101, 112, 108, 105, 99, 97]

/-- The payload of a fetch request for one partition. -/
def fetchPayload (replicaID : ℤ) (topic : Bytes) (p fetchOffset corr : ℤ) : Bytes :=
  putInt16 apiFetch ++ putInt16 fetchAPIVersion ++ putInt32 corr
    ++ putNullableString (some replicaClientID)
    ++ putInt32 replicaID ++ putInt32 fetchMaxWaitMs ++ putInt32 fetchMinBytes
    ++ putInt32 fetchMaxBytes
    -- isolation_level READ_UNCOMMITTED
    ++ putInt8 0
    ++ putArrayLen 1 ++ putString topic
    ++ putArrayLen 1 ++ putInt32 p ++ putInt64 fetchOffset ++ putInt32 fetchMaxBytes

/-- The framed request. -/
def encodeFetch (replicaID : ℤ) (topic : Bytes) (p fetchOffset corr : ℤ) : Bytes :=
  let payload := fetchPayload replicaID topic p fetchOffset corr
  bePut 4 payload.length ++ payload

/-- What the follower takes from a response. -/
structure FetchPartitionResult where
  errorCode : ℤ
  hwm : ℤ
  records : Option Bytes
  deriving DecidableEq, Repr

def readFetchPartition : Read FetchPartitionResult := do
  -- partition index
  let _ ← int32
  let errorCode ← int16
  let hwm ← int64
  -- last_stable_offset
  let _ ← int64
  -- aborted_transactions: producer_id and first_offset
  let _ ← array do
    let _ ← int64
    int64
  let records ← bytes
  pure ⟨errorCode, hwm, records⟩

def readFetchTopic : Read (List FetchPartitionResult) := do
  let _ ← string
  array readFetchPartition

def readFetchTopics : Read (List (List FetchPartitionResult)) := do
  -- correlation id, then throttle_time_ms
  let _ ← int32
  let _ ← int32
  array readFetchTopic

/-- Why a response could not be read. -/
inductive ReadErr
  /-- The connection ended within the frame. -/
  | unexpectedEOF
  /-- A read ran past the frame. -/
  | short
  deriving DecidableEq, Repr

/-- `ReadFull` of `n` bytes from what the connection carries. -/
def readFull (conn : Bytes) (n : ℕ) : Except ReadErr (Bytes × Bytes) :=
  if conn.length < n then .error .unexpectedEOF else .ok (conn.take n, conn.drop n)

/-- Read one framed response and keep the first partition of its first topic. -/
def readFetchResponse (conn : Bytes) : Except ReadErr FetchPartitionResult := do
  let (lenBuf, conn) ← readFull conn 4
  let (frame, _) ← readFull conn (beGet lenBuf)
  let (topics, r) := readFetchTopics (newReader frame)
  if r.err then throw .short
  else pure ((topics.headD []).headD ⟨0, 0, none⟩)

/-! ### The broker reads what the follower writes -/

theorem reads_since_of_le {version v : ℤ} {m : Read ℤ} {b : Bytes} {x : ℤ} (h : v ≤ version)
    (hm : Reads m b x) : Reads (since version v m) b x := by
  rw [since, if_pos h]
  exact hm

theorem reads_since_of_lt {version v : ℤ} {m : Read ℤ} (h : version < v) :
    Reads (since version v m) [] 0 := by
  rw [since, if_neg (by omega)]
  exact reads_pure 0

/-- The header of a follower's request. -/
theorem reads_requestHeader (key version corr : ℤ) {client : Option Bytes}
    (hclient : ∀ s ∈ client, s.length ≤ 32767) :
    Reads decodeRequestHeader
      (putInt16 key ++ (putInt16 version ++ (putInt32 corr ++ putNullableString client)))
      ⟨wrap16 key, wrap16 version, wrap32 corr, client⟩ := by
  refine Reads.bind (reads_int16 key) ?_
  refine Reads.bind (reads_int16 version) ?_
  refine Reads.bind (reads_int32 corr) ?_
  exact Reads.map (reads_nullableString hclient) _

/-- One partition of a request, at version 4. -/
theorem reads_fetchPartition (p off max : ℤ) :
    Reads (FetchPartition.decode 4) (putInt32 p ++ (putInt64 off ++ putInt32 max))
      ⟨wrap32 p, wrap64 off, 0, wrap32 max⟩ := by
  refine Reads.bind (reads_int32 p) ?_
  refine Reads.bind_nil (reads_since_of_lt (by decide)) ?_
  refine Reads.bind (reads_int64 off) ?_
  refine Reads.bind_nil (reads_since_of_lt (by decide)) ?_
  exact Reads.map (reads_int32 max) _

/-- One topic with one partition, at version 4. -/
theorem reads_fetchTopic {topic : Bytes} (htopic : topic.length ≤ 32767) (p off max : ℤ) :
    Reads (FetchTopic.decode 4)
      (putString topic ++ (putArrayLen 1 ++ (putInt32 p ++ (putInt64 off ++ putInt32 max))))
      ⟨topic, [⟨wrap32 p, wrap64 off, 0, wrap32 max⟩]⟩ := by
  refine Reads.bind (reads_string htopic) ?_
  have hone : Reads (array (FetchPartition.decode 4))
      (putArray (fun _ : Unit => putInt32 p ++ (putInt64 off ++ putInt32 max)) [()])
      [⟨wrap32 p, wrap64 off, 0, wrap32 max⟩] :=
    reads_array (by decide) fun _ _ =>
      ⟨by rw [← List.length_pos_iff]; simp, reads_fetchPartition p off max⟩
  refine Reads.map (Reads.of_eq hone ?_ rfl) _
  simp [putArray]

/-- The body of a follower's request, at version 4. -/
theorem reads_fetchBody (replicaID : ℤ) {topic : Bytes} (htopic : topic.length ≤ 32767)
    (p off : ℤ) :
    Reads (FetchRequest.decode 4)
      (putInt32 replicaID ++ (putInt32 fetchMaxWaitMs ++ (putInt32 fetchMinBytes ++
        (putInt32 fetchMaxBytes ++ (putInt8 0 ++ (putArrayLen 1 ++ (putString topic ++
          (putArrayLen 1 ++ (putInt32 p ++ (putInt64 off ++ putInt32 fetchMaxBytes))))))))))
      ⟨wrap32 replicaID, fetchMaxWaitMs, fetchMinBytes, fetchMaxBytes, 0, 0, 0,
        [⟨topic, [⟨wrap32 p, wrap64 off, 0, fetchMaxBytes⟩]⟩]⟩ := by
  have htopics : Reads (array (FetchTopic.decode 4))
      (putArray (fun _ : Unit => putString topic ++
        (putArrayLen 1 ++ (putInt32 p ++ (putInt64 off ++ putInt32 fetchMaxBytes)))) [()])
      [⟨topic, [⟨wrap32 p, wrap64 off, 0, wrap32 fetchMaxBytes⟩]⟩] :=
    reads_array (by decide) fun _ _ =>
      ⟨by rw [← List.length_pos_iff]; simp [putString], reads_fetchTopic htopic p off fetchMaxBytes⟩
  refine Reads.bind (reads_int32 replicaID) ?_
  refine Reads.bind (reads_int32 fetchMaxWaitMs) ?_
  refine Reads.bind (reads_int32 fetchMinBytes) ?_
  refine Reads.bind (reads_since_of_le (by decide) (reads_int32 fetchMaxBytes)) ?_
  refine Reads.bind (reads_since_of_le (by decide) (reads_int8 0)) ?_
  -- version 4 has no session fields
  refine Reads.bind_nil (reads_since_of_lt (by decide)) ?_
  refine Reads.bind_nil (reads_since_of_lt (by decide)) ?_
  refine Reads.map (Reads.of_eq htopics ?_ rfl) _
  simp [putArray]

/-- **The broker reads a follower's request**: the fields of its header, and one topic
with one partition. -/
theorem reads_fetchRequest (replicaID : ℤ) {topic : Bytes} (htopic : topic.length ≤ 32767)
    (p off corr : ℤ) :
    Reads (do
        let hdr ← decodeRequestHeader
        let req ← FetchRequest.decode hdr.apiVersion
        pure (hdr, req))
      (fetchPayload replicaID topic p off corr)
      (⟨apiFetch, fetchAPIVersion, wrap32 corr, some replicaClientID⟩,
        ⟨wrap32 replicaID, fetchMaxWaitMs, fetchMinBytes, fetchMaxBytes, 0, 0, 0,
          [⟨topic, [⟨wrap32 p, wrap64 off, 0, fetchMaxBytes⟩]⟩]⟩) := by
  have hclient : ∀ s ∈ some replicaClientID, s.length ≤ 32767 := by simp [replicaClientID]
  have hheader := reads_requestHeader apiFetch fetchAPIVersion corr hclient
  have hbody := reads_fetchBody replicaID htopic p off
  refine Reads.of_eq (Reads.bind hheader (Reads.map hbody _)) ?_ rfl
  simp only [fetchPayload, List.append_assoc]

/-! ### The follower reads what the broker writes -/

/-- The part of a response that a follower takes over. -/
def FetchPartitionResp.result (p : FetchPartitionResp) : FetchPartitionResult :=
  ⟨wrap16 p.errorCode, wrap64 p.highWatermark, p.records⟩

theorem reads_partitionResp {p : FetchPartitionResp}
    (hrecords : ∀ b ∈ p.records, b.length < 2147483648) :
    Reads readFetchPartition (p.encode 4) p.result := by
  have hnone : Reads (array (do let _ ← int64; int64)) (putArray (fun _ : Unit => []) []) [] :=
    @reads_array _ _ _ _ (fun _ => 0) [] (by decide) (by simp)
  have hchain : Reads readFetchPartition
      (putInt32 p.partition ++ (putInt16 p.errorCode ++ (putInt64 p.highWatermark ++
        (putInt64 p.lastStable ++ (putArrayLen 0 ++ putBytes p.records))))) p.result := by
    refine Reads.bind (reads_int32 p.partition) ?_
    refine Reads.bind (reads_int16 p.errorCode) ?_
    refine Reads.bind (reads_int64 p.highWatermark) ?_
    refine Reads.bind (reads_int64 p.lastStable) ?_
    refine Reads.bind (Reads.of_eq hnone (by simp [putArray]) rfl) ?_
    exact Reads.map (reads_bytes hrecords) _
  refine Reads.of_eq hchain ?_ rfl
  simp [FetchPartitionResp.encode, putSince]

theorem reads_topicResp {t : FetchTopicResp} (hname : t.name.length ≤ 32767)
    (hlen : t.partitions.length < 2147483648)
    (hrecords : ∀ p ∈ t.partitions, ∀ b ∈ p.records, b.length < 2147483648) :
    Reads readFetchTopic (t.encode 4) (t.partitions.map FetchPartitionResp.result) := by
  refine Reads.bind (reads_string hname) (reads_array hlen fun p hp => ⟨?_, ?_⟩)
  · rw [← List.length_pos_iff]
    simp [FetchPartitionResp.encode]
  · exact reads_partitionResp (hrecords p hp)

/-- The length of the array of a fetch response fits its field when the frame does. -/
theorem length_lt_of_putArray {α : Type} {put : α → Bytes} {as : List α} {n : ℕ}
    (hput : ∀ a ∈ as, 2 ≤ (put a).length) (hn : (putArray put as).length ≤ n) :
    2 * as.length ≤ n := by
  have hflat : 2 * as.length ≤ (as.map put).flatten.length := by
    clear hn
    induction as with
    | nil => simp
    | cons a as ih =>
      have ha := hput a List.mem_cons_self
      have hrest := ih fun b hb => hput b (List.mem_cons_of_mem a hb)
      rw [List.map_cons, List.flatten_cons, List.length_append, List.length_cons]
      omega
  rw [putArray, List.length_append] at hn
  omega

theorem length_le_putArray {α : Type} (put : α → Bytes) {as : List α} {a : α} (ha : a ∈ as) :
    (put a).length ≤ (putArray put as).length := by
  have := List.Sublist.length_le
    (List.sublist_flatten_of_mem (List.mem_map_of_mem (f := put) ha))
  rw [putArray, List.length_append]
  omega

theorem two_le_length_partitionResp (version : ℤ) (p : FetchPartitionResp) :
    2 ≤ (p.encode version).length := by
  simp only [FetchPartitionResp.encode, List.length_append, length_putInt32]
  omega

theorem two_le_length_topicResp (version : ℤ) (t : FetchTopicResp) :
    2 ≤ (t.encode version).length := by
  simp only [FetchTopicResp.encode, putString, List.length_append, length_putInt16]
  omega

/-- **The follower reads the broker's response**, every partition of every topic. -/
theorem reads_fetchResponse {resp : FetchResponse} (corr : ℤ)
    (hnames : ∀ t ∈ resp.topics, t.name.length ≤ 32767)
    (hrecords : ∀ t ∈ resp.topics, ∀ p ∈ t.partitions, ∀ b ∈ p.records, b.length < 2147483648)
    (hframe : (putResponseHeader corr ++ resp.encode 4).length < 4294967296) :
    Reads readFetchTopics (putResponseHeader corr ++ resp.encode 4)
      (resp.topics.map fun t => t.partitions.map FetchPartitionResp.result) := by
  have hbody : resp.encode 4 =
      putInt32 resp.throttleTime ++ putArray (FetchTopicResp.encode 4) resp.topics := by
    simp [FetchResponse.encode, putSince]
  have hle : (putArray (FetchTopicResp.encode 4) resp.topics).length < 4294967296 := by
    rw [hbody, List.length_append, List.length_append] at hframe
    omega
  rw [hbody]
  refine Reads.bind (reads_int32 corr) (Reads.bind (reads_int32 resp.throttleTime) ?_)
  refine reads_array ?_ fun t ht => ⟨?_, reads_topicResp (hnames t ht) ?_ (hrecords t ht)⟩
  · have := length_lt_of_putArray (fun t _ => two_le_length_topicResp 4 t)
      (Nat.le_sub_one_of_lt hle)
    omega
  · have := two_le_length_topicResp 4 t
    rintro hnil
    rw [hnil] at this
    simp at this
  · have htopic := length_le_putArray (FetchTopicResp.encode 4) ht
    have hparts : (putArray (FetchPartitionResp.encode 4) t.partitions).length ≤
        (t.encode 4).length := by
      rw [FetchTopicResp.encode, List.length_append]
      omega
    have := length_lt_of_putArray (fun p _ => two_le_length_partitionResp 4 p) hparts
    omega

theorem beGet_bePut_four {n : ℕ} (h : n < 4294967296) : beGet (bePut 4 n) = n := by
  have hpow : (256 : ℕ) ^ 4 = 4294967296 := by norm_num
  rw [beGet_bePut, hpow, Nat.mod_eq_of_lt h]

theorem readFull_append {a : Bytes} (b : Bytes) {n : ℕ} (h : a.length = n) :
    readFull (a ++ b) n = .ok (a, b) := by
  have hn : ¬ (a ++ b).length < n := by
    rw [List.length_append]
    omega
  rw [readFull, if_neg hn, List.take_left' h, List.drop_left' h]

/-- A frame behind a length field that says its length is read as a whole. -/
theorem readFetchResponse_frame {lenBuf payload : Bytes} (h4 : lenBuf.length = 4)
    (hlen : beGet lenBuf = payload.length) :
    readFetchResponse (lenBuf ++ payload) =
      if (readFetchTopics (newReader payload)).2.err then .error .short
      else .ok (((readFetchTopics (newReader payload)).1.headD []).headD ⟨0, 0, none⟩) := by
  have hhead := readFull_append payload h4
  have hrest := readFull_append (a := payload) [] rfl
  rw [List.append_nil] at hrest
  rw [readFetchResponse, hhead]
  simp only [bind, Except.bind]
  rw [hlen, hrest]
  rfl

/-- **The codecs of the two sides agree.**  The broker reads a follower's request
without an error and to its last byte, as the request that the follower meant; the
follower reads the first partition of a response in which every name fits its length
field and which, as a frame, fits its own. -/
theorem codecs_agree :
    (∀ (replicaID p off corr : ℤ) (topic : Bytes), IsInt32 replicaID → IsInt32 p → IsInt64 off →
      IsInt32 corr → topic.length ≤ 32767 →
      let payload := (encodeFetch replicaID topic p off corr).drop 4
      (do
        let hdr ← decodeRequestHeader
        let req ← FetchRequest.decode hdr.apiVersion
        pure (hdr, req) : Read _) (newReader payload) =
        ((⟨apiFetch, fetchAPIVersion, corr, some replicaClientID⟩,
          ⟨replicaID, fetchMaxWaitMs, fetchMinBytes, fetchMaxBytes, 0, 0, 0,
            [⟨topic, [⟨p, off, 0, fetchMaxBytes⟩]⟩]⟩), ⟨payload, payload.length, false⟩)) ∧
    ∀ (resp : FetchResponse) (corr : ℤ) (t : FetchTopicResp) (ts : List FetchTopicResp)
      (p : FetchPartitionResp) (ps : List FetchPartitionResp),
      resp.topics = t :: ts → t.partitions = p :: ps → IsInt16 p.errorCode →
      IsInt64 p.highWatermark →
      (∀ t ∈ resp.topics, ∀ p ∈ t.partitions, ∀ b ∈ p.records, b.length < 2147483648) →
      (∀ t ∈ resp.topics, t.name.length ≤ 32767) →
      (putResponseHeader corr ++ resp.encode 4).length < 4294967296 →
      readFetchResponse (writeResponse corr (resp.encode 4)) =
        .ok ⟨p.errorCode, p.highWatermark, p.records⟩ := by
  constructor
  · intro replicaID p off corr topic hreplica hp hoff hcorr htopic
    have hpayload : (encodeFetch replicaID topic p off corr).drop 4 =
        fetchPayload replicaID topic p off corr := List.drop_left' (length_bePut 4 _)
    have hread := (reads_fetchRequest replicaID htopic p off corr).newReader
    rw [wrap32_eq hreplica.1 hreplica.2, wrap32_eq hp.1 hp.2, wrap64_eq hoff.1 hoff.2,
      wrap32_eq hcorr.1 hcorr.2] at hread
    dsimp only
    rw [hpayload]
    exact hread
  · intro resp corr t ts p ps htopics hparts herr hhwm hrecords hnames hframe
    have hread := (reads_fetchResponse corr hnames hrecords hframe).newReader
    rw [writeResponse, readFetchResponse_frame (length_bePut 4 _) (beGet_bePut_four hframe), hread,
      htopics, List.map_cons, hparts, List.map_cons]
    simp only [Bool.false_eq_true, if_false, List.headD_cons, FetchPartitionResp.result,
      wrap16_eq herr.1 herr.2, wrap64_eq hhwm.1 hhwm.2]

/-- A partition with an empty record set, and a topic without partitions. -/
def twoTopics : FetchResponse :=
  ⟨0, 0, 0, [⟨[116], [⟨0, 0, 9, 9, 0, some []⟩]⟩, ⟨[117], []⟩]⟩

/-- Both directions on a run of the fetcher: partition 0 of a topic from offset 5, and a
response. -/
theorem codecs_agree_two_topics :
    (do
      let hdr ← decodeRequestHeader
      let req ← FetchRequest.decode hdr.apiVersion
      pure (hdr, req) : Read _) (newReader ((encodeFetch 2 [116] 0 5 7).drop 4)) =
      ((⟨apiFetch, fetchAPIVersion, 7, some replicaClientID⟩,
        ⟨2, fetchMaxWaitMs, fetchMinBytes, fetchMaxBytes, 0, 0, 0,
          [⟨[116], [⟨0, 5, 0, fetchMaxBytes⟩]⟩]⟩),
        ⟨(encodeFetch 2 [116] 0 5 7).drop 4, ((encodeFetch 2 [116] 0 5 7).drop 4).length, false⟩) ∧
    readFetchResponse (writeResponse 7 (twoTopics.encode 4)) = .ok ⟨0, 9, some []⟩ := by
  refine ⟨codecs_agree.1 2 0 5 7 [116] ⟨by decide, by decide⟩ ⟨by decide, by decide⟩
    ⟨by decide, by decide⟩ ⟨by decide, by decide⟩ (by decide), ?_⟩
  exact codecs_agree.2 twoTopics 7 ⟨[116], [⟨0, 0, 9, 9, 0, some []⟩]⟩ [⟨[117], []⟩]
    ⟨0, 0, 9, 9, 0, some []⟩ [] rfl rfl ⟨by decide, by decide⟩ ⟨by decide, by decide⟩
    (by simp [twoTopics]) (by simp [twoTopics]) (by decide)

/-! ### Responses that do not fit their length fields -/

/-- A topic name of 32768 bytes. -/
def longName : Bytes := List.replicate 32768 97

theorem longName_eq : longName = putArrayLen 1633771873 ++ List.replicate 32764 97 := by
  have hhead : putArrayLen 1633771873 = List.replicate 4 97 := by decide
  rw [hhead, ← List.replicate_add, longName]

/-- The length field of a name of 32768 bytes is negative, so the name is read as the
empty string, and its own first bytes as a number of partitions. -/
theorem fails_longName : Fails readFetchTopic (FetchTopicResp.encode 4 ⟨longName, []⟩) := by
  have hencode : FetchTopicResp.encode 4 ⟨longName, []⟩ = putInt16 (-32768) ++
      (putArrayLen 1633771873 ++ (List.replicate 32764 97 ++ putArrayLen 0)) := by
    have hlen : putInt16 longName.length = putInt16 (-32768) := by
      rw [longName, List.length_replicate]
      decide
    simp only [FetchTopicResp.encode, putString, hlen, putArray, List.map_nil, List.flatten_nil,
      List.append_nil, List.length_nil]
    rw [longName_eq]
    simp only [List.append_assoc]
  have hname : Reads string (putInt16 (-32768)) [] := by
    refine Reads.of_eq (Reads.bind (reads_int16 (-32768)) ?_) (List.append_nil _) rfl
    rw [if_pos (by decide)]
    exact reads_pure []
  have hshort : (List.replicate 32764 97 ++ putArrayLen 0).length < 1633771873 := by
    rw [List.length_append, List.length_replicate, putArrayLen, length_putInt32]
    decide
  rw [hencode]
  refine Fails.bind hname fun before => ?_
  rw [array, bind_apply, arrayLen_short (by decide) hshort]
  rfl

/-- A response of the shape that a follower asks for, with one more topic. -/
def longTopics : FetchResponse :=
  ⟨0, 0, 0, [⟨[116], [⟨0, 0, 9, 9, 0, some []⟩]⟩, ⟨longName, []⟩]⟩

/-- The name of the second topic makes the response unreadable. -/
theorem readFetchResponse_longTopics :
    readFetchResponse (writeResponse 7 (longTopics.encode 4)) = .error .short := by
  have htopic := reads_topicResp (t := ⟨[116], [⟨0, 0, 9, 9, 0, some []⟩]⟩) (by decide) (by decide)
    (by simp)
  have hbody : longTopics.encode 4 = putInt32 0 ++ (putArrayLen 2 ++
      (FetchTopicResp.encode 4 ⟨[116], [⟨0, 0, 9, 9, 0, some []⟩]⟩ ++
        FetchTopicResp.encode 4 ⟨longName, []⟩)) := by
    simp [FetchResponse.encode, putSince, longTopics, putArray]
  have hfails : Fails readFetchTopics (putResponseHeader 7 ++ longTopics.encode 4) := by
    rw [hbody]
    refine Fails.bind (reads_int32 7) (Fails.bind (reads_int32 0) ?_)
    refine Fails.array (by decide) ?_ (Fails.bind htopic (Fails.map ?_ _))
    · have := two_le_length_topicResp 4 ⟨longName, []⟩
      rw [List.length_append]
      omega
    · exact fails_longName.repeated_one
  have hlen : (putResponseHeader 7 ++ longTopics.encode 4).length < 4294967296 := by
    have hlong : longName.length = 32768 := List.length_replicate
    have hlast : (FetchTopicResp.encode 4 ⟨longName, []⟩).length = 32774 := by
      simp only [FetchTopicResp.encode, putString, putArray, putArrayLen, List.length_append,
        length_putInt16, length_putInt32, hlong, List.map_nil, List.flatten_nil, List.length_nil]
    rw [hbody]
    simp only [List.length_append, hlast, putResponseHeader, putArrayLen, length_putInt32]
    decide
  rw [writeResponse, readFetchResponse_frame (length_bePut 4 _) (beGet_bePut_four hlen)]
  rw [if_pos hfails.newReader]

/-- Behind a length field of 0 the follower reads nothing. -/
theorem readFetchResponse_zero {lenBuf : Bytes} (payload : Bytes) (h4 : lenBuf.length = 4)
    (hlen : beGet lenBuf = 0) : readFetchResponse (lenBuf ++ payload) = .error .short := by
  have hnone : readFull payload 0 = .ok ([], payload) := if_neg (Nat.not_lt_zero _)
  rw [readFetchResponse, readFull_append payload h4]
  simp only [bind, Except.bind]
  rw [hlen, hnone]
  rfl

/-- Three partitions of one topic, two of them with these records. -/
def wideTopics (b : Bytes) : FetchResponse :=
  ⟨0, 0, 0, [⟨[116], [⟨0, 0, 9, 9, 0, some [1]⟩, ⟨1, 0, 9, 9, 0, some b⟩,
    ⟨2, 0, 9, 9, 0, some b⟩]⟩]⟩

/-- The length of a frame of `2 ^ 32` bytes is written as 0. -/
theorem readFetchResponse_wideTopics {b : Bytes} (hb : b.length = 2147483593) :
    readFetchResponse (writeResponse 7 ((wideTopics b).encode 4)) = .error .short := by
  have hframe : (putResponseHeader 7 ++ (wideTopics b).encode 4).length = 4294967296 := by
    simp [wideTopics, FetchResponse.encode, FetchTopicResp.encode, FetchPartitionResp.encode,
      putSince, putArray, putArrayLen, putString, putBytes, putResponseHeader, hb]
  rw [writeResponse]
  generalize putResponseHeader 7 ++ (wideTopics b).encode 4 = payload at hframe ⊢
  have hzero : beGet (bePut 4 payload.length) = 0 := by
    have hpow : (256 : ℕ) ^ 4 = 4294967296 := by norm_num
    rw [beGet_bePut, hpow, hframe, Nat.mod_self]
  exact readFetchResponse_zero payload (length_bePut 4 _) hzero

/-- **A response is unreadable although its first topic and its record sets are as they should
be**: because of the name of its second topic, or because its frame has `2 ^ 32` bytes. -/
theorem oversized_response_unreadable :
    (longTopics.topics.head? = some ⟨[116], [⟨0, 0, 9, 9, 0, some []⟩]⟩ ∧
      (∀ t ∈ longTopics.topics, ∀ p ∈ t.partitions, ∀ b ∈ p.records, b.length < 2147483648) ∧
      readFetchResponse (writeResponse 7 (longTopics.encode 4)) = .error .short) ∧
    ∃ b : Bytes, (∀ t ∈ (wideTopics b).topics, t.name.length ≤ 32767) ∧
      (∀ t ∈ (wideTopics b).topics, ∀ p ∈ t.partitions, ∀ r ∈ p.records, r.length < 2147483648) ∧
      readFetchResponse (writeResponse 7 ((wideTopics b).encode 4)) = .error .short := by
  obtain ⟨b, hb⟩ : ∃ b : Bytes, b.length = 2147483593 := ⟨_, @List.length_replicate _ _ 0⟩
  exact ⟨⟨rfl, by simp [longTopics], readFetchResponse_longTopics⟩, b, by simp [wideTopics],
    by simp [wideTopics, hb], readFetchResponse_wideTopics hb⟩

end Wire
end Mq
