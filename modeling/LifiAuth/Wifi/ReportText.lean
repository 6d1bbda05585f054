import LifiAuth.Support.JsonTokens
import LifiAuth.Support.JsonWriter
import LifiAuth.Wifi.ChallengeServer

/-!
# The text of a frame report

`reporter_post` formats a report as JSON and `dashboard_http_post` puts it behind an HTTP
header; both buffers are large enough.  The preview of the payload is put between quotation
marks as it is, so that a quotation mark or a backslash in it makes the text another one.
-/

namespace LifiAuth

open Support Json

/-! ## The request -/

/-- What `snprintf` leaves in a buffer of `size` bytes. -/
def snprintf (size : ℕ) (s : List UInt8) : List UInt8 :=
  s.take (size - 1)

theorem snprintf_of_lt {size : ℕ} {s : List UInt8} (h : s.length < size) :
    snprintf size s = s :=
  List.take_of_length_le (by omega)

/-- `g_dashboard_host`: an IPv4 address in 16 bytes. -/
structure DashboardHost where
  text : List UInt8
  address : ∀ c ∈ text, isDigit c ∨ c = 46
  length_lt : text.length < 16

/-- `DASHBOARD_PORT`. -/
def dashboardPort : ℕ := 8420

/-- The lines of the header of `dashboard_http_post`. -/
def postHeader (path : List UInt8) (host : DashboardHost) (jlen : ℕ) (hmacOut : Bytes 32) :
    List (List UInt8) :=
  [ascii "POST " ++ path ++ ascii " HTTP/1.1",
    ascii "Host: " ++ host.text ++ ascii ":" ++ decimal dashboardPort,
    ascii "Content-Type: application/json",
    ascii "Content-Length: " ++ decimal jlen,
    ascii "X-SST-HMAC: " ++ hexString hmacOut.toList,
    ascii "Connection: close"]

/-- Lines and a blank one. -/
def headerText (lines : List (List UInt8)) : List UInt8 :=
  lines.flatMap (· ++ ascii "\r\n") ++ ascii "\r\n"

/-- `req` of `dashboard_http_post`; `hmacOut` is what stands in the buffer of that name. -/
def dashboardRequest (path json : List UInt8) (jlen : ℕ) (host : DashboardHost)
    (hmacOut : Bytes 32) : List UInt8 :=
  snprintf 1024 (headerText (postHeader path host jlen hmacOut) ++ json)

/-- What `reporter_post` sends. -/
def reporterRequest (ev : ReporterEvent) (host : DashboardHost) (hmacOut : Bytes 32) :
    List UInt8 :=
  dashboardRequest (ascii "/pi4_frame") (snprintf 512 (frameReportJson ev))
    (frameReportJson ev).length host hmacOut

/-- The part of a request behind its first blank line. -/
def requestBody (request : List UInt8) : Option (List UInt8) :=
  (strstr (ascii "\r\n\r\n") request).map (List.drop 4)

/-- A header ends at its blank line. -/
theorem requestBody_headerText {lines : List (List UInt8)}
    (h : ∀ line ∈ lines, line ≠ [] ∧ 13 ∉ line) (hne : lines ≠ []) (body : List UInt8) :
    requestBody (headerText lines ++ body) = some body := by
  have hneedle : ascii "\r\n\r\n" = [13, 10, 13, 10] := rfl
  have hend : ascii "\r\n" = [13, 10] := rfl
  have hfound : strstr [13, 10, 13, 10] (headerText lines ++ body) =
      some ([13, 10, 13, 10] ++ body) := by
    rw [headerText, hend]
    induction lines with
    | nil => exact absurd rfl hne
    | cons line lines ih =>
        obtain ⟨⟨hline, hcr⟩, hlines⟩ := List.forall_mem_cons.mp h
        rw [List.flatMap_cons, List.append_assoc, List.append_assoc, List.append_assoc,
          strstr_append hcr]
        rcases lines with _ | ⟨next, lines⟩
        · exact strstr_found (by decide) body
        · have hrest := ih hlines (List.cons_ne_nil _ _)
          obtain ⟨c, t, hnext⟩ := List.exists_cons_of_ne_nil (hlines next (.head _)).1
          have hc : c ≠ 13 := by
            rintro rfl
            exact (hlines next (.head _)).2 (by rw [hnext]; exact .head _)
          generalize htail : (next :: lines).flatMap (· ++ [13, 10]) ++ [13, 10] ++ body = tail
            at hrest
          obtain ⟨s, hs⟩ : ∃ s, tail = c :: s := by
            rw [← htail, List.flatMap_cons, hnext]
            exact ⟨_, rfl⟩
          have htext : [13, 10] ++ ((next :: lines).flatMap (· ++ [13, 10]) ++
              ([13, 10] ++ body)) = 13 :: ([10] ++ tail) := by
            rw [← htail]
            simp
          have hnot : ¬ [10, 13, 10] <+: [10] ++ tail := by
            rw [hs]
            intro hprefix
            obtain ⟨-, hprefix⟩ := List.cons_prefix_cons.mp hprefix
            exact hc (List.cons_prefix_cons.mp hprefix).1.symm
          rw [htext, strstr_cons hnot, strstr_append (by decide), hrest]
  rw [requestBody, hneedle, hfound]
  rfl

/-! ## The text as an object -/

/-- The members of a report. -/
def reportMembers (ev : ReporterEvent) : List Member :=
  [stringMember (ascii "event") (ascii "frame_decrypted"),
    stringMember (ascii "key_id") ev.keyIdHex,
    stringMember (ascii "payload_preview") ev.payloadPreview,
    stringMember (ascii "raw_preview") ev.rawPreview,
    objectMember (ascii "stats")
      [numberMember (ascii "total") ev.total, numberMember (ascii "ok") ev.ok,
        numberMember (ascii "fail") ev.fail]]

/-- What the format makes of a report, around the preview. -/
theorem frameReportJson_eq (ev : ReporterEvent) :
    frameReportJson ev =
      123 :: 34 :: (ascii "event" ++ 34 :: 58 :: 34 :: (ascii "frame_decrypted" ++
        34 :: 44 :: 34 :: (ascii "key_id" ++ 34 :: 58 :: 34 :: (ev.keyIdHex ++
        34 :: 44 :: 34 :: (ascii "payload_preview" ++ 34 :: 58 :: [34]))))) ++
      (ev.payloadPreview ++ 34 :: 44 :: 34 :: (ascii "raw_preview" ++ 34 :: 58 :: 34 ::
        (ev.rawPreview ++ 34 :: 44 :: membersText
          [objectMember (ascii "stats")
            [numberMember (ascii "total") ev.total, numberMember (ascii "ok") ev.ok,
              numberMember (ascii "fail") ev.fail]]))) := by
  have hevent : ascii "\x7b\"event\":\"frame_decrypted\",\"key_id\":\"" =
      123 :: 34 :: (ascii "event" ++ 34 :: 58 :: 34 :: (ascii "frame_decrypted" ++
        34 :: 44 :: 34 :: (ascii "key_id" ++ [34, 58, 34]))) := by decide
  have hpreview : ascii "\",\"payload_preview\":\"" =
      34 :: 44 :: 34 :: (ascii "payload_preview" ++ [34, 58, 34]) := by decide
  have hraw : ascii "\",\"raw_preview\":\"" =
      34 :: 44 :: 34 :: (ascii "raw_preview" ++ [34, 58, 34]) := by decide
  have hstats : ascii "\",\"stats\":\x7b\"total\":" =
      34 :: 44 :: 34 :: (ascii "stats" ++
        34 :: 58 :: 123 :: 34 :: (ascii "total" ++ [34, 58])) := by decide
  have hok : ascii ",\"ok\":" = 44 :: 34 :: (ascii "ok" ++ [34, 58]) := by decide
  have hfail : ascii ",\"fail\":" = 44 :: 34 :: (ascii "fail" ++ [34, 58]) := by decide
  have hend : ascii "\x7d\x7d" = [125, 125] := by decide
  rw [frameReportJson, hevent, hpreview, hraw, hstats, hok, hfail, hend]
  simp [objectText, membersText, objectMember, numberMember]

theorem plain_of_digits {s : List UInt8} (h : ∀ c ∈ s, (hexValue c).isSome) : Plain s := by
  intro c hc
  refine ⟨?_, ne_of_hexValue (h c hc) rfl, ne_of_hexValue (h c hc) rfl⟩
  exact UInt8.le_trans (by decide) (le_of_hexValue (h c hc))

section

variable {ev : ReporterEvent} (hid : ∀ c ∈ ev.keyIdHex, (hexValue c).isSome)
  (hraw : ∀ c ∈ ev.rawPreview, (hexValue c).isSome)

include hid hraw

/-- A report whose preview stands for itself is the text of its members. -/
theorem loads_frameReportJson (hpreview : Plain ev.payloadPreview) :
    loads (frameReportJson ev) = some (obj ((reportMembers ev).map Member.entry)) := by
  have hidPlain := plain_of_digits hid
  have hrawPlain := plain_of_digits hraw
  have hevent : Plain (ascii "frame_decrypted") := by decide
  have htext : frameReportJson ev = objectText (reportMembers ev) := by
    rw [frameReportJson_eq]
    simp [objectText, membersText, reportMembers, stringMember, hidPlain.escape,
      hrawPlain.escape, hpreview.escape, hevent.escape]
  have hstats : ∀ m ∈ [numberMember (ascii "total") ev.total, numberMember (ascii "ok") ev.ok,
      numberMember (ascii "fail") ev.fail], m.Reads 1 := by
    simp only [List.forall_mem_cons]
    exact ⟨reads_numberMember (by decide) _ (by decide),
      reads_numberMember (by decide) _ (by decide),
      reads_numberMember (by decide) _ (by decide), List.forall_mem_nil _⟩
  have hmembers : ∀ m ∈ reportMembers ev, m.Reads 5 := by
    simp only [reportMembers, List.forall_mem_cons]
    exact ⟨reads_stringMember (by decide) (by decide) (by decide),
      reads_stringMember (by decide) (fun c hc => (hidPlain c hc).1) (by decide),
      reads_stringMember (by decide) (fun c hc => (hpreview c hc).1) (by decide),
      reads_stringMember (by decide) (fun c hc => (hrawPlain c hc).1) (by decide),
      reads_objectMember (by decide) (List.cons_ne_nil _ _) hstats (Nat.le_of_eq rfl),
      List.forall_mem_nil _⟩
  have hlen : 5 + (reportMembers ev).length ≤ (objectText (reportMembers ev)).length := by
    have hcount : (reportMembers ev).length = 5 := rfl
    have hevent : (ascii "event").length = 5 := rfl
    rw [hcount]
    simp only [objectText, membersText, reportMembers, stringMember, List.length_cons,
      List.length_append, hevent]
    omega
  rw [htext]
  exact loads_objectText (List.cons_ne_nil _ _) hmembers hlen

end

/-! ## Marks in the preview -/

/-- A text that is put between marks as it is, in front of the name of another member, is
not read back if it has a mark or a backslash in it. -/
theorem not_memberString_of_mark {before text after : List UInt8} {c : UInt8}
    (hbefore : 92 ∉ before) (hafter : 92 ∉ c :: after)
    (hc : isBlank c = false ∧ c ≠ 44 ∧ c ≠ 125) (hmark : 34 ∈ text ∨ 92 ∈ text) :
    ¬ MemberString (before ++ 34 :: (text ++ 34 :: 44 :: 34 :: c :: after))
      (text.map UInt8.toNat) := by
  rintro ⟨pre, t, rest, heq, ht, hend⟩
  have hbehind : 92 ∉ 34 :: 44 :: 34 :: c :: after := by
    simpa using hafter
  -- What is read is written with a backslash, so it is longer than the text.
  have hslash := ht.slash_mem hmark
  have hlong : text.length < t.length := by
    have hlt := ht.length_lt hslash
    rwa [List.length_map] at hlt
  obtain ⟨z, hz⟩ := ht.guarded.behind_mark hbefore hslash heq
  -- So it ends behind the text, at a mark that does not follow a backslash.
  rcases List.append_eq_append_iff.mp hz with ⟨u, -, hu⟩ | ⟨u, htext, hrest⟩
  · exact hbehind (by rw [hu]; simp [hslash])
  have hu : u.length ≤ text.length := by
    rw [htext, List.length_append]
    omega
  rcases List.append_eq_append_iff.mp hrest with ⟨v, hv, -⟩ | ⟨v, hv, htail⟩
  · rw [hv, List.length_append] at hu
    omega
  rcases v with _ | ⟨v₀, _ | ⟨v₁, _ | ⟨v₂, v⟩⟩⟩
  · rw [List.append_nil] at hv
    rw [hv] at hlong
    omega
  · cases (List.cons.inj (List.cons.inj htail).2).1
  · have hnext : rest = c :: after := by
      have h₂ := (List.cons.inj (List.cons.inj htail).2).2
      exact (List.cons.inj h₂).2.symm
    rw [hnext, skipBlanks_cons hc.1, List.head?_cons, Option.some.injEq,
      Option.some.injEq] at hend
    exact hend.elim hc.2.1 hc.2.2
  · obtain ⟨rfl, h₁⟩ := List.cons.inj htail
    obtain ⟨rfl, h₂⟩ := List.cons.inj h₁
    obtain ⟨rfl, -⟩ := List.cons.inj h₂
    obtain ⟨a, ha⟩ := ht.guarded (u ++ [34, 44]) v (by rw [hv]; simp)
    have hlast := congrArg List.getLast? ha
    simp at hlast

section

variable {ev : ReporterEvent} (hid : ∀ c ∈ ev.keyIdHex, (hexValue c).isSome)
  (hraw : ∀ c ∈ ev.rawPreview, (hexValue c).isSome)

include hid hraw

/-- The preview of a report is not read back if there is a mark or a backslash in it. -/
theorem field_frameReportJson_ne {v : Json} (h : loads (frameReportJson ev) = some v)
    (hmark : 34 ∈ ev.payloadPreview ∨ 92 ∈ ev.payloadPreview) :
    v.field ((ascii "payload_preview").map UInt8.toNat) ≠
      some (str (ev.payloadPreview.map UInt8.toNat)) := by
  intro hfield
  have hmember := memberString_of_field h hfield
  have hidSlash : 92 ∉ ev.keyIdHex := fun hmem => ne_of_hexValue (hid 92 hmem) rfl rfl
  have hrawSlash : 92 ∉ ev.rawPreview := fun hmem => ne_of_hexValue (hraw 92 hmem) rfl rfl
  have hdecimal (n : ℕ) : 92 ∉ decimal n := by
    intro hmem
    cases isDigit_of_mem_decimal hmem
  have hnames : (92 ∉ ascii "event" ∧ 92 ∉ ascii "frame_decrypted" ∧ 92 ∉ ascii "key_id" ∧
      92 ∉ ascii "payload_preview") ∧ 92 ∉ ascii "aw_preview" ∧ 92 ∉ ascii "stats" ∧
      92 ∉ ascii "total" ∧ 92 ∉ ascii "ok" ∧ 92 ∉ ascii "fail" := by decide
  have hname : ascii "raw_preview" = 114 :: ascii "aw_preview" := rfl
  have htext := frameReportJson_eq ev
  rw [hname] at htext
  generalize hbefore : 123 :: 34 :: (ascii "event" ++ 34 :: 58 :: 34 ::
    (ascii "frame_decrypted" ++ 34 :: 44 :: 34 :: (ascii "key_id" ++ 34 :: 58 :: 34 ::
    (ev.keyIdHex ++ 34 :: 44 :: 34 :: (ascii "payload_preview" ++ [34, 58]))))) = before
  generalize hafter : ascii "aw_preview" ++ 34 :: 58 :: 34 :: (ev.rawPreview ++ 34 :: 44 ::
    membersText [objectMember (ascii "stats") [numberMember (ascii "total") ev.total,
      numberMember (ascii "ok") ev.ok, numberMember (ascii "fail") ev.fail]]) = after
  have hslash : 92 ∉ before := by
    rw [← hbefore]
    simp [hnames.1, hidSlash]
  have hslash' : 92 ∉ 114 :: after := by
    rw [← hafter]
    simp [hnames.2, hrawSlash, hdecimal, membersText, objectText, objectMember, numberMember]
  refine not_memberString_of_mark hslash hslash' (by decide) hmark ?_
  rw [htext] at hmember
  rw [← hbefore, ← hafter]
  simpa using hmember

end

/-! ## What the dashboard reads -/

/-- A byte as the preview is to show it. -/
def dotted (b : UInt8) : UInt8 :=
  if 0x20 ≤ b ∧ b ≤ 0x7e then b else 46

/-- A request that is complete and has the body that the report is to have. -/
def FrameReportRead (host : DashboardHost) (hmacOut : Bytes 32) (keyId : Bytes 8)
    (payload raw : List UInt8) (total ok fail : UInt64) (request : List UInt8) : Prop :=
  ∃ body v,
    request =
      headerText (postHeader (ascii "/pi4_frame") host body.length hmacOut) ++ body ∧
    requestBody request = some body ∧ loads body = some v ∧
    v.field ((ascii "payload_preview").map UInt8.toNat) =
      some (str (((payload.take 64).map dotted).map UInt8.toNat)) ∧
    v.field ((ascii "raw_preview").map UInt8.toNat) =
      some (str ((hexString (raw.take 32)).map UInt8.toNat)) ∧
    v.field ((ascii "key_id").map UInt8.toNat) =
      some (str ((hexString keyId.toList).map UInt8.toNat)) ∧
    v.field ((ascii "stats").map UInt8.toNat) =
      some (obj [((ascii "total").map UInt8.toNat, int total.toNat),
        ((ascii "ok").map UInt8.toNat, int ok.toNat),
        ((ascii "fail").map UInt8.toNat, int fail.toNat)])

/-- The statistics of a report. -/
def reportedStats (total ok fail : UInt64) : SessionStats :=
  { SessionStats.zero with
    totalPkts := total.toNat
    decryptSuccess := ok.toNat
    decryptFail := fail.toNat }

theorem printableChar_eq (b : UInt8) : printableChar b = dotted b := by
  rw [printableChar, dotted]
  by_cases hshown : 0x20 ≤ b ∧ b ≤ 0x7e
  · rw [if_pos hshown, if_neg]
    rw [not_or, UInt8.not_lt]
    exact ⟨hshown.1, UInt8.not_lt.mpr hshown.2⟩
  · rw [if_neg hshown, if_pos]
    rw [not_and_or, UInt8.not_le, UInt8.not_le] at hshown
    exact hshown

section

variable (host : DashboardHost) (hmacOut : Bytes 32) (keyId : Bytes 8)
  (payload raw : List UInt8) (total ok fail : UInt64) (r : Reporter)

theorem length_decimal_counter (n : UInt64) : (decimal n.toNat).length ≤ 20 := by
  rw [length_decimal_le_iff (by decide)]
  exact lt_of_lt_of_le n.toNat_lt (by decide)

/-- The text of a report is shorter than its buffer. -/
theorem length_frameReportJson_lt :
    (frameReportJson
      (r.signal keyId payload raw (reportedStats total ok fail)).event).length < 512 := by
  have htotal := length_decimal_counter total
  have hok := length_decimal_counter ok
  have hfail := length_decimal_counter fail
  have hpreview : ((payload.take 64).map printableChar).length ≤ 64 := by
    rw [List.length_map, List.length_take]
    omega
  have hraw : (raw.take 32).length ≤ 32 := List.length_take_le _ _
  have hid := keyId.toList_length
  have hevent : (ascii "\x7b\"event\":\"frame_decrypted\",\"key_id\":\"").length = 37 := rfl
  have hpayload : (ascii "\",\"payload_preview\":\"").length = 21 := rfl
  have hrawName : (ascii "\",\"raw_preview\":\"").length = 17 := rfl
  have hstats : (ascii "\",\"stats\":\x7b\"total\":").length = 19 := rfl
  have hokName : (ascii ",\"ok\":").length = 6 := rfl
  have hfailName : (ascii ",\"fail\":").length = 8 := rfl
  have hend : (ascii "\x7d\x7d").length = 2 := rfl
  simp only [frameReportJson, Reporter.signal, reportedStats, List.length_append,
    length_hexString]
  omega

/-- And the request is shorter than its buffer. -/
theorem length_postHeader_lt {path : List UInt8} (hpath : path.length ≤ 11) {jlen : ℕ}
    (hjlen : jlen < 512) :
    (headerText (postHeader path host jlen hmacOut)).length < 512 := by
  have hcount : (decimal jlen).length ≤ 3 := by
    rw [length_decimal_le_iff (by decide)]
    omega
  have hport : (decimal dashboardPort).length ≤ 4 := by
    rw [length_decimal_le_iff (by decide)]
    decide
  have hhost := host.length_lt
  have hmac := hmacOut.toList_length
  have hpost : (ascii "POST ").length = 5 := rfl
  have hversion : (ascii " HTTP/1.1").length = 9 := rfl
  have hhostName : (ascii "Host: ").length = 6 := rfl
  have hcolon : (ascii ":").length = 1 := rfl
  have htype : (ascii "Content-Type: application/json").length = 30 := rfl
  have hlength : (ascii "Content-Length: ").length = 16 := rfl
  have hhmac : (ascii "X-SST-HMAC: ").length = 12 := rfl
  have hclose : (ascii "Connection: close").length = 17 := rfl
  have hend : (ascii "\r\n").length = 2 := rfl
  simp only [headerText, postHeader, List.flatMap_cons, List.flatMap_nil, List.length_append,
    List.length_nil, length_hexString]
  omega

/-- The lines of the header are none that could end it. -/
theorem lines_postHeader {path : List UInt8} (hpath : 13 ∉ path) (jlen : ℕ) :
    ∀ line ∈ postHeader path host jlen hmacOut, line ≠ [] ∧ 13 ∉ line := by
  have hhost : 13 ∉ host.text := by
    intro hmem
    rcases host.address 13 hmem with h | h
    · cases h
    · cases h
  have hdecimal (n : ℕ) : 13 ∉ decimal n := by
    intro hmem
    cases isDigit_of_mem_decimal hmem
  have hhex : 13 ∉ hexString hmacOut.toList := by
    intro hmem
    cases hexValue_of_mem_hexString hmem
  have htexts : 13 ∉ ascii "POST " ∧ 13 ∉ ascii " HTTP/1.1" ∧ 13 ∉ ascii "Host: " ∧
      13 ∉ ascii ":" ∧ 13 ∉ ascii "Content-Type: application/json" ∧
      13 ∉ ascii "Content-Length: " ∧ 13 ∉ ascii "X-SST-HMAC: " ∧
      13 ∉ ascii "Connection: close" := by decide
  have hnames : ascii "POST " ≠ [] ∧ ascii "Host: " ≠ [] ∧
      ascii "Content-Type: application/json" ≠ [] ∧ ascii "Content-Length: " ≠ [] ∧
      ascii "X-SST-HMAC: " ≠ [] ∧ ascii "Connection: close" ≠ [] := by decide
  simp only [postHeader, List.forall_mem_cons]
  simp [htexts, hnames, hpath, hhost, hdecimal, hhex]

/-- What is sent is complete. -/
theorem reporterRequest_eq :
    let json := frameReportJson (r.signal keyId payload raw (reportedStats total ok fail)).event
    reporterRequest (r.signal keyId payload raw (reportedStats total ok fail)).event host hmacOut =
        headerText (postHeader (ascii "/pi4_frame") host json.length hmacOut) ++ json ∧
      requestBody (reporterRequest
        (r.signal keyId payload raw (reportedStats total ok fail)).event host hmacOut) =
        some json := by
  intro json
  have hjson : json.length < 512 := length_frameReportJson_lt keyId payload raw total ok fail r
  have hheader : (headerText (postHeader (ascii "/pi4_frame") host json.length hmacOut)).length <
      512 := length_postHeader_lt host hmacOut (by decide) hjson
  have hrequest : reporterRequest
      (r.signal keyId payload raw (reportedStats total ok fail)).event host hmacOut =
        headerText (postHeader (ascii "/pi4_frame") host json.length hmacOut) ++ json := by
    change snprintf 1024 (headerText (postHeader _ host json.length hmacOut) ++
      snprintf 512 json) = _
    rw [snprintf_of_lt hjson, snprintf_of_lt]
    rw [List.length_append]
    omega
  refine ⟨hrequest, ?_⟩
  rw [hrequest]
  exact requestBody_headerText (lines_postHeader host hmacOut (by decide) _)
    (List.cons_ne_nil _ _) json

section

variable {host hmacOut keyId payload raw total ok fail r}

theorem map_printableChar (s : List UInt8) : s.map printableChar = s.map dotted :=
  List.map_congr_left fun b _ => printableChar_eq b

/-- The preview has the marks and backslashes of the payload, and no other characters that
mean something in a string. -/
theorem plain_preview_iff (s : List UInt8) :
    Plain (s.map printableChar) ↔ ∀ c ∈ s, c ≠ 34 ∧ c ≠ 92 := by
  have hchar (c : UInt8) : (32 ≤ printableChar c ∧ printableChar c ≠ 34 ∧
      printableChar c ≠ 92) ↔ c ≠ 34 ∧ c ≠ 92 := by
    rw [printableChar_eq, dotted]
    by_cases hshown : 0x20 ≤ c ∧ c ≤ 0x7e
    · rw [if_pos hshown]
      exact and_iff_right hshown.1
    · rw [if_neg hshown]
      refine iff_of_true (by decide) ⟨?_, ?_⟩
      · rintro rfl
        exact hshown (by decide)
      · rintro rfl
        exact hshown (by decide)
  rw [Plain, List.forall_mem_map]
  exact forall₂_congr fun c _ => hchar c

theorem digits_hexString {bytes : List UInt8} :
    ∀ c ∈ hexString bytes, (hexValue c).isSome :=
  fun _ hc => hexValue_of_mem_hexString hc

theorem frameReport_read_of_plain (h : ∀ c ∈ payload.take 64, c ≠ 34 ∧ c ≠ 92) :
    FrameReportRead host hmacOut keyId payload raw total ok fail
      (reporterRequest (r.signal keyId payload raw (reportedStats total ok fail)).event
        host hmacOut) := by
  obtain ⟨hrequest, hbody⟩ :=
    reporterRequest_eq host hmacOut keyId payload raw total ok fail r
  have hplain : Plain
      (r.signal keyId payload raw (reportedStats total ok fail)).event.payloadPreview :=
    (plain_preview_iff _).mpr h
  have hloads := loads_frameReportJson digits_hexString digits_hexString hplain
  refine ⟨_, _, hrequest, hbody, hloads, ?_, ?_, ?_, ?_⟩
  · rw [← map_printableChar]
    rfl
  · rfl
  · rfl
  · rfl

theorem not_frameReport_read_of_mark (h : ¬ ∀ c ∈ payload.take 64, c ≠ 34 ∧ c ≠ 92) :
    ¬ FrameReportRead host hmacOut keyId payload raw total ok fail
      (reporterRequest (r.signal keyId payload raw (reportedStats total ok fail)).event
        host hmacOut) := by
  rintro ⟨body, v, -, hbody, hloads, hfield, -⟩
  obtain ⟨-, hbody'⟩ :=
    reporterRequest_eq host hmacOut keyId payload raw total ok fail r
  obtain rfl : body = frameReportJson
      (r.signal keyId payload raw (reportedStats total ok fail)).event := by
    exact Option.some.inj (hbody.symm.trans hbody')
  have hmark : 34 ∈ (payload.take 64).map printableChar ∨
      92 ∈ (payload.take 64).map printableChar := by
    push Not at h
    obtain ⟨c, hc, himp⟩ := h
    by_cases hquote : c = 34
    · subst hquote
      exact Or.inl (List.mem_map.mpr ⟨34, hc, by decide⟩)
    · obtain rfl := himp hquote
      exact Or.inr (List.mem_map.mpr ⟨92, hc, by decide⟩)
  refine field_frameReportJson_ne digits_hexString digits_hexString hloads hmark ?_
  rw [← map_printableChar] at hfield
  exact hfield

end

/-- The dashboard reads a report as it is meant exactly if there is no quotation mark and no
backslash in the part of the payload that is shown. -/
theorem frameReport_read_iff :
    FrameReportRead host hmacOut keyId payload raw total ok fail
        (reporterRequest (r.signal keyId payload raw (reportedStats total ok fail)).event
          host hmacOut) ↔
      ∀ c ∈ payload.take 64, c ≠ 34 ∧ c ≠ 92 := by
  constructor
  · intro h
    by_contra hmark
    exact not_frameReport_read_of_mark hmark h
  · exact frameReport_read_of_plain

end

/-- A payload that is a quotation mark is not reported. -/
theorem quotedPayload_unread :
    ¬ FrameReportRead ⟨ascii "172.20.10.2", by decide, by decide⟩ (Bytes.zero 32) (Bytes.zero 8)
      [34] [0] 1 1 0
      (reporterRequest
        (Reporter.initial.signal (Bytes.zero 8) [34] [0] (reportedStats 1 1 0)).event
        ⟨ascii "172.20.10.2", by decide, by decide⟩ (Bytes.zero 32)) :=
  not_frameReport_read_of_mark (by decide)

end LifiAuth
