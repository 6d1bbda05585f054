import LifiAuth.Wifi.Dashboard
import LifiAuth.Wifi.ReportText
import LifiAuth.Wifi.RequestVerifier
import Mathlib.Algebra.Order.Group.Abs

/-!
# Signed requests, from the dashboard to dash_receiver

The dashboard signs `timestamp|nonce|path|body` and puts the first two and the tag into
headers; `dash_receiver` cuts the four parts out of the request again.  What the dashboard
sends is accepted.  Nothing in the headers keeps them free of the separator, but a text that
the dashboard signed has three of them, so it has no other parts than its own.
-/

namespace LifiAuth

open Support

/-! ## The request as it is received -/

/-- `sscanf(buf, "%*s %63s", path)`. -/
def requestPath (buf : List UInt8) : List UInt8 :=
  ((((buf.dropWhile isSpace).dropWhile fun c => !isSpace c).dropWhile isSpace).takeWhile
    fun c => !isSpace c).take 63

/-- The call of `verify_signed_request` with what `challenge_handle` cuts out of the bytes
that `recv` has put into `buf[2048]`. -/
def receivedCall (received : List UInt8) (now : Int64) (keyReady : Bool) (stack : Bytes 32) :
    VerifyCall :=
  let buf := cstr (received.take 2047)
  let body := (requestBody buf).getD []
  { buf := buf
    path := requestPath buf
    body := body
    bodyLen := body.length
    now := now
    keyReady := keyReady
    stack := stack }

/-! ## The requests of the dashboard -/

/-- `PI4_HOST`: a string in which no line ends, and without the letter that the signed
headers begin with. -/
structure Pi4Host where
  text : List UInt8
  clean : ∀ c ∈ [0, 13, 88], c ∉ text

/-- `PI4_CHALLENGE_PORT`. -/
def pi4ChallengePort : ℕ := 5001

/-- The signed requests of `app.py`, with their bodies. -/
inductive ControlRequest where
  | status
  | forceKey (body : List UInt8)
  | setBaud (body : List UInt8)
  | challenge (body : List UInt8)

namespace ControlRequest

def path : ControlRequest → List UInt8
  | status => ascii "/status"
  | forceKey _ => ascii "/force_key"
  | setBaud _ => ascii "/set_baud"
  | challenge _ => ascii "/challenge"

def body : ControlRequest → List UInt8
  | status => []
  | forceKey body | setBaud body | challenge body => body

/-- The headers of `_sign_pi4_request`. -/
def signedHeaders (env : SignEnv) (tag : Bytes 32) : List (List UInt8) :=
  [ascii "X-SST-Timestamp: " ++ decimal env.time,
    ascii "X-SST-Nonce: " ++ hexString env.nonce.toList,
    ascii "X-SST-HMAC: " ++ hexString tag.toList]

def hostLine (host : Pi4Host) : List UInt8 :=
  ascii "Host: " ++ host.text ++ ascii ":" ++ decimal pi4ChallengePort

/-- The lines in front of the signed headers. -/
def linesBefore (host : Pi4Host) : ControlRequest → List (List UInt8)
  | status => [ascii "GET /status HTTP/1.1", hostLine host]
  | forceKey _ => [ascii "POST /force_key HTTP/1.1", hostLine host]
  | setBaud _ => [ascii "POST /set_baud HTTP/1.1", hostLine host]
  | challenge _ =>
      [ascii "POST /challenge HTTP/1.1", hostLine host, ascii "Content-Type: application/json"]

/-- The lines behind them. -/
def linesAfter : ControlRequest → List (List UInt8)
  | status => [ascii "Connection: close"]
  | forceKey body | setBaud body =>
      [ascii "Content-Type: application/json",
        ascii "Content-Length: " ++ decimal body.length, ascii "Connection: close"]
  | challenge body =>
      [ascii "Content-Length: " ++ decimal body.length, ascii "Connection: close"]

/-- What is sent. -/
def text (r : ControlRequest) (host : Pi4Host) (env : SignEnv) (tag : Bytes 32) : List UInt8 :=
  headerText (r.linesBefore host ++ signedHeaders env tag ++ r.linesAfter) ++ r.body

end ControlRequest

/-! ## Headers -/

/-- A header line. -/
def headerLine (name value : List UInt8) : List UInt8 :=
  name ++ 32 :: (value ++ [13, 10])

/-- Where the search finds the line, a value in hexadecimal is read up to its end. -/
theorem extractHeader_of_strstr {buf name value rest : List UInt8} {outSize : ℕ}
    (hfound : strstr name buf = strstr name (headerLine name value ++ rest)) (hname : name ≠ [])
    (hvalue : ∀ c ∈ value, (hexValue c).isSome) (hne : value ≠ [])
    (hlen : value.length < outSize) : extractHeader buf name outSize = some value := by
  have hline : headerLine name value ++ rest = name ++ 32 :: (value ++ 13 :: 10 :: rest) := by
    simp [headerLine]
  rw [hline, strstr_found hname] at hfound
  have hclean : ∀ c ∈ value, (c != 13 && c != 10) = true := by
    intro c hc
    have hcr : c ≠ 13 := ne_of_hexValue (hvalue c hc) rfl
    have hlf : c ≠ 10 := ne_of_hexValue (hvalue c hc) rfl
    simp [hcr, hlf]
  obtain ⟨d, ds, rfl⟩ := List.exists_cons_of_ne_nil hne
  have hspace : (d == 32) = false :=
    beq_eq_false_iff_ne.mpr (ne_of_hexValue (hvalue d (.head _)) rfl)
  have hskip : (32 :: (d :: ds ++ 13 :: 10 :: rest)).dropWhile (fun c => c == 32) =
      d :: ds ++ 13 :: 10 :: rest := by
    rw [List.dropWhile_cons_of_pos rfl, List.cons_append,
      List.dropWhile_cons_of_neg (by simp [hspace])]
  have hread : (d :: ds ++ 13 :: 10 :: rest).takeWhile (fun c => c != 13 && c != 10) =
      d :: ds := by
    rw [List.takeWhile_append_of_pos hclean, List.takeWhile_cons_of_neg (by decide),
      List.append_nil]
  rw [extractHeader, hfound, Option.bind_some]
  simp only [List.drop_left', hskip, hread, List.take_of_length_le (Nat.le_sub_one_of_lt hlen)]
  exact if_neg hne

/-! ## What the dashboard sends -/

theorem not_mem_hostLine (host : Pi4Host) {c : UInt8} (hc : c ∈ [0, 13, 88]) :
    c ∉ ControlRequest.hostLine host := by
  have hname : ∀ c ∈ [(0 : UInt8), 13, 88], c ∉ ascii "Host: " := by decide
  have hport : ∀ c ∈ [(0 : UInt8), 13, 88], c ∉ ascii ":" ++ decimal pi4ChallengePort := by
    decide +kernel
  rw [ControlRequest.hostLine, List.append_assoc, List.mem_append, List.mem_append, not_or,
    not_or]
  exact ⟨⟨hname c hc, host.clean c hc⟩, hport c hc⟩

/-- The lines of a request have no line breaks in them, and none is empty. -/
theorem lines_controlRequest (r : ControlRequest) (host : Pi4Host) (env : SignEnv)
    (tag : Bytes 32) :
    ∀ line ∈ r.linesBefore host ++ ControlRequest.signedHeaders env tag ++ r.linesAfter,
      line ≠ [] ∧ 13 ∉ line ∧ 0 ∉ line := by
  have hhost (c : UInt8) (hc : c = 13 ∨ c = 0) : c ∉ ControlRequest.hostLine host := by
    rcases hc with rfl | rfl
    · exact not_mem_hostLine host (by decide)
    · exact not_mem_hostLine host (by decide)
  have hdecimal (n : ℕ) : 13 ∉ decimal n ∧ 0 ∉ decimal n := by
    constructor
    · intro hmem
      cases isDigit_of_mem_decimal hmem
    · intro hmem
      cases isDigit_of_mem_decimal hmem
  have hhex (bytes : List UInt8) : 13 ∉ hexString bytes ∧ 0 ∉ hexString bytes := by
    constructor
    · intro hmem
      cases hexValue_of_mem_hexString hmem
    · intro hmem
      cases hexValue_of_mem_hexString hmem
  have hhostLine : ControlRequest.hostLine host ≠ [] := List.cons_ne_nil _ _
  have hrequest : ∀ line ∈ [ascii "GET /status HTTP/1.1", ascii "POST /force_key HTTP/1.1",
      ascii "POST /set_baud HTTP/1.1", ascii "POST /challenge HTTP/1.1",
      ascii "Content-Type: application/json", ascii "Connection: close"],
      line ≠ [] ∧ 13 ∉ line ∧ 0 ∉ line := by decide
  have hnames : ∀ name ∈ [ascii "X-SST-Timestamp: ", ascii "X-SST-Nonce: ",
      ascii "X-SST-HMAC: ", ascii "Content-Length: "],
      name ≠ [] ∧ 13 ∉ name ∧ 0 ∉ name := by decide
  simp only [List.forall_mem_cons, List.not_mem_nil, false_imp_iff, implies_true, and_true]
    at hrequest hnames
  rcases r with _ | body | body | body
  all_goals
    simp only [ControlRequest.linesBefore, ControlRequest.signedHeaders,
      ControlRequest.linesAfter, List.cons_append, List.nil_append, List.forall_mem_cons,
      List.mem_append, not_or]
    simp [hrequest, hnames, hhost, hdecimal, hhex, hhostLine]

/-- Three signed headers as they follow each other. -/
def headersText (before ts nonceHex hmacHex rest : List UInt8) : List UInt8 :=
  before ++ (headerLine (ascii "X-SST-Timestamp:") ts ++
    (headerLine (ascii "X-SST-Nonce:") nonceHex ++
      (headerLine (ascii "X-SST-HMAC:") hmacHex ++ rest)))

theorem controlRequest_text (r : ControlRequest) (host : Pi4Host) (env : SignEnv)
    (tag : Bytes 32) :
    ∃ before, 88 ∉ before ∧
      r.text host env tag = headersText before (decimal env.time) (hexString env.nonce.toList)
        (hexString tag.toList) (headerText r.linesAfter ++ r.body) := by
  have hhost : 88 ∉ ControlRequest.hostLine host :=
    not_mem_hostLine host (by decide)
  have hconst : ∀ line ∈ [ascii "GET /status HTTP/1.1", ascii "POST /force_key HTTP/1.1",
      ascii "POST /set_baud HTTP/1.1", ascii "POST /challenge HTTP/1.1",
      ascii "Content-Type: application/json", ascii "\r\n"], 88 ∉ line := by decide
  simp only [List.forall_mem_cons, List.not_mem_nil, false_imp_iff, implies_true, and_true]
    at hconst
  refine ⟨(r.linesBefore host).flatMap (· ++ ascii "\r\n"), ?_, ?_⟩
  · rcases r with _ | body | body | body
    all_goals simp [ControlRequest.linesBefore, hconst, hhost]
  · have hts : ascii "X-SST-Timestamp: " = ascii "X-SST-Timestamp:" ++ [32] := rfl
    have hnonce : ascii "X-SST-Nonce: " = ascii "X-SST-Nonce:" ++ [32] := rfl
    have hhmac : ascii "X-SST-HMAC: " = ascii "X-SST-HMAC:" ++ [32] := rfl
    have hend : ascii "\r\n" = [13, 10] := rfl
    simp [ControlRequest.text, ControlRequest.signedHeaders, headerText, headersText, headerLine,
      hts, hnonce, hhmac, hend]

theorem not_mem_headerLine {name value : List UInt8} (hname : 88 ∉ name)
    (hvalue : ∀ c ∈ value, (hexValue c).isSome) : 88 ∉ headerLine name value := by
  have hdigits : 88 ∉ value := fun hmem => ne_of_hexValue (hvalue 88 hmem) rfl rfl
  simp [headerLine, hname, hdigits]

/-- A search passes over the header of another name. -/
theorem strstr_passed {needle name value : List UInt8} (hname : 88 ∉ name)
    (hother : ¬ needle <+: name ∧ ¬ name <+: needle) (hvalue : ∀ c ∈ value, (hexValue c).isSome)
    (s : List UInt8) :
    strstr (88 :: needle) (headerLine (88 :: name) value ++ s) = strstr (88 :: needle) s := by
  have hline : 88 ∉ headerLine name value := not_mem_headerLine hname hvalue
  have hneedle : ¬ needle <+: headerLine name value ++ s := by
    intro hprefix
    have hfirst : name <+: headerLine name value ++ s := by
      rw [headerLine, List.append_assoc]
      exact List.prefix_append _ _
    exact (List.prefix_or_prefix_of_prefix hprefix hfirst).elim hother.1 hother.2
  exact (strstr_cons hneedle).trans (strstr_append hline s)

section

variable {before ts nonceHex hmacHex : List UInt8} (hbefore : 88 ∉ before)
  (hts : ∀ c ∈ ts, (hexValue c).isSome) (hnonce : ∀ c ∈ nonceHex, (hexValue c).isSome)
  (hhmac : ∀ c ∈ hmacHex, (hexValue c).isSome) (rest : List UInt8)

include hbefore hts in
theorem extractHeader_timestamp (hne : ts ≠ []) (hlen : ts.length < 32) :
    extractHeader (headersText before ts nonceHex hmacHex rest) (ascii "X-SST-Timestamp:") 32 =
      some ts := by
  have hname : ascii "X-SST-Timestamp:" = 88 :: ascii "-SST-Timestamp:" := rfl
  have hfound : strstr (ascii "X-SST-Timestamp:")
      (headersText before ts nonceHex hmacHex rest) =
        strstr (ascii "X-SST-Timestamp:") (headerLine (ascii "X-SST-Timestamp:") ts ++
          (headerLine (ascii "X-SST-Nonce:") nonceHex ++
            (headerLine (ascii "X-SST-HMAC:") hmacHex ++ rest))) := by
    rw [headersText, hname, strstr_append hbefore]
  exact extractHeader_of_strstr hfound (by decide) hts hne hlen

include hbefore hts hnonce in
theorem extractHeader_nonce (hne : nonceHex ≠ []) (hlen : nonceHex.length < 25) :
    extractHeader (headersText before ts nonceHex hmacHex rest) (ascii "X-SST-Nonce:") 25 =
      some nonceHex := by
  have hname : ascii "X-SST-Nonce:" = 88 :: ascii "-SST-Nonce:" := rfl
  have hother : ascii "X-SST-Timestamp:" = 88 :: ascii "-SST-Timestamp:" := rfl
  have hfound : strstr (ascii "X-SST-Nonce:") (headersText before ts nonceHex hmacHex rest) =
      strstr (ascii "X-SST-Nonce:") (headerLine (ascii "X-SST-Nonce:") nonceHex ++
        (headerLine (ascii "X-SST-HMAC:") hmacHex ++ rest)) := by
    rw [headersText, hname, strstr_append hbefore, hother,
      strstr_passed (by decide) (by decide) hts]
  exact extractHeader_of_strstr hfound (by decide) hnonce hne hlen

include hbefore hts hnonce hhmac in
theorem extractHeader_hmac (hne : hmacHex ≠ []) (hlen : hmacHex.length < 65) :
    extractHeader (headersText before ts nonceHex hmacHex rest) (ascii "X-SST-HMAC:") 65 =
      some hmacHex := by
  have hname : ascii "X-SST-HMAC:" = 88 :: ascii "-SST-HMAC:" := rfl
  have hfirst : ascii "X-SST-Timestamp:" = 88 :: ascii "-SST-Timestamp:" := rfl
  have hsecond : ascii "X-SST-Nonce:" = 88 :: ascii "-SST-Nonce:" := rfl
  have hfound : strstr (ascii "X-SST-HMAC:") (headersText before ts nonceHex hmacHex rest) =
      strstr (ascii "X-SST-HMAC:") (headerLine (ascii "X-SST-HMAC:") hmacHex ++ rest) := by
    rw [headersText, hname, strstr_append hbefore, hfirst, hsecond,
      strstr_passed (by decide) (by decide) hts, strstr_passed (by decide) (by decide) hnonce]
  exact extractHeader_of_strstr hfound (by decide) hhmac hne hlen

end

/-- Its path is what is cut out of a request. -/
theorem requestPath_text (r : ControlRequest) (host : Pi4Host) (env : SignEnv)
    (tag : Bytes 32) : requestPath (r.text host env tag) = r.path := by
  rcases r with _ | body | body | body
  · rfl
  · rfl
  · rfl
  · rfl

theorem requestBody_text (r : ControlRequest) (host : Pi4Host) (env : SignEnv)
    (tag : Bytes 32) : requestBody (r.text host env tag) = some r.body := by
  refine requestBody_headerText (fun line hline => ?_) ?_ r.body
  · have hlines := lines_controlRequest r host env tag line hline
    exact ⟨hlines.1, hlines.2.1⟩
  · rw [List.append_assoc]
    refine List.append_ne_nil_of_right_ne_nil _ (List.cons_ne_nil _ _)

/-- A request without zero bytes is a string. -/
theorem not_mem_controlRequest_text (r : ControlRequest) (host : Pi4Host) (env : SignEnv)
    (tag : Bytes 32) (hbody : 0 ∉ r.body) : 0 ∉ r.text host env tag := by
  have hlines := lines_controlRequest r host env tag
  have hend : 0 ∉ ascii "\r\n" := by decide
  rw [ControlRequest.text, headerText, List.mem_append, List.mem_append, List.mem_flatMap]
  rintro ((⟨line, hline, hmem⟩ | hmem) | hmem)
  · rcases List.mem_append.mp hmem with hmem | hmem
    · exact (hlines line hline).2.2 hmem
    · exact hend hmem
  · exact hend hmem
  · exact hbody hmem

/-! ## Time stamps -/

/-- A time stamp that is close to the clock is taken. -/
theorem requestSkew_decimal {now : Int64} {time : ℕ} (h : |now.toInt - time| ≤ 30) :
    requestSkew now (Int64.ofInt (strtoll (decimal time))) ≤ reqSigMaxSkewS := by
  have hlt := now.toInt_lt
  have hge := now.le_toInt
  rw [abs_le] at h
  have hts : (Int64.ofInt (strtoll (decimal time))).toInt = min (2 ^ 63 - 1) (time : ℤ) := by
    rw [Int64.toInt_ofInt_of_le, strtoll_decimal]
    · rw [strtoll_decimal]
      omega
    · rw [strtoll_decimal]
      omega
  generalize Int64.ofInt (strtoll (decimal time)) = ts at hts
  have hlimit : reqSigMaxSkewS.toInt = 30 := rfl
  rw [requestSkew, Int64.le_iff_toInt_le, hlimit]
  split
  · next hlt =>
      rw [Int64.lt_iff_toInt_lt] at hlt
      rw [Int64.toInt_sub, Int.bmod_eq_of_le]
      · omega
      · omega
      · omega
  · next hlt =>
      rw [Int64.not_lt, Int64.le_iff_toInt_le] at hlt
      rw [Int64.toInt_sub, Int.bmod_eq_of_le]
      · omega
      · omega
      · omega

theorem length_decimal_time {now : Int64} {time : ℕ} (h : |now.toInt - time| ≤ 30) :
    (decimal time).length < 32 := by
  have hlt := now.toInt_lt
  rw [abs_le] at h
  refine Nat.lt_succ_of_le ((length_decimal_le_iff (by decide)).mpr ?_)
  omega

/-! ## Acceptance -/

theorem suffix_requestBody (buf : List UInt8) : (requestBody buf).getD [] <:+ buf := by
  rcases hfound : strstr (ascii "\r\n\r\n") buf with _ | p
  · rw [requestBody, hfound]
    exact List.nil_suffix
  · rw [requestBody, hfound]
    exact (List.drop_suffix 4 p).trans (suffix_of_strstr hfound)

section

variable (received : List UInt8) (now : Int64) (keyReady : Bool) (stack : Bytes 32)

theorem suffix_body_receivedCall :
    (receivedCall received now keyReady stack).body <:+ cstr (received.take 2047) := by
  rw [receivedCall]
  exact suffix_requestBody (cstr (received.take 2047))

/-- The body that is cut out is printed as a whole. -/
theorem printedBody_receivedCall :
    (receivedCall received now keyReady stack).printedBody =
      (receivedCall received now keyReady stack).body := by
  have hsuffix := suffix_body_receivedCall received now keyReady stack
  have hbuf : (cstr (received.take 2047)).length ≤ 2047 :=
    (List.takeWhile_prefix _).length_le.trans (List.length_take_le _ _)
  have hlen := hsuffix.length_le
  refine printedBody_eq rfl (fun hmem => not_mem_cstr _ (hsuffix.subset hmem)) ?_
  omega

/-- The parts of a request as the dashboard signs them. -/
def ControlRequest.signedRequest (r : ControlRequest) (env : SignEnv) (tag : Bytes 32) :
    SignedRequest where
  timestamp := decimal env.time
  nonce := hexString env.nonce.toList
  path := r.path
  body := r.body
  hmac := hexString tag.toList

/-- They are what is cut out of its text. -/
theorem request_receivedCall {r : ControlRequest} {host : Pi4Host} {env : SignEnv}
    {tag : Bytes 32} (hbody : 0 ∉ r.body) (hlen : (r.text host env tag).length < 2048)
    (htime : |now.toInt - env.time| ≤ 30) :
    (receivedCall (r.text host env tag) now keyReady stack).request =
      some (r.signedRequest env tag) := by
  have hstring : 0 ∉ r.text host env tag := not_mem_controlRequest_text r host env tag hbody
  have hbuf : cstr ((r.text host env tag).take 2047) = r.text host env tag := by
    rw [List.take_of_length_le (Nat.le_of_lt_succ hlen), cstr_of_not_mem hstring]
  have hcallBuf : (receivedCall (r.text host env tag) now keyReady stack).buf =
      r.text host env tag := hbuf
  have hcallPath : (receivedCall (r.text host env tag) now keyReady stack).path = r.path := by
    change requestPath (cstr _) = _
    rw [hbuf, requestPath_text]
  have hcallBody : (receivedCall (r.text host env tag) now keyReady stack).printedBody =
      r.body := by
    rw [printedBody_receivedCall]
    change (requestBody (cstr _)).getD [] = _
    rw [hbuf, requestBody_text]
    rfl
  have hpath : cstr r.path = r.path := by
    rcases r with _ | body | body | body
    all_goals rfl
  obtain ⟨before, hbefore, htext⟩ := controlRequest_text r host env tag
  have hts : ∀ c ∈ decimal env.time, (hexValue c).isSome :=
    fun c hc => hexValue_of_isDigit (isDigit_of_mem_decimal hc)
  have hnonce : ∀ c ∈ hexString env.nonce.toList, (hexValue c).isSome :=
    fun c hc => hexValue_of_mem_hexString hc
  have hhmac : ∀ c ∈ hexString tag.toList, (hexValue c).isSome :=
    fun c hc => hexValue_of_mem_hexString hc
  have hnonceLen : (hexString env.nonce.toList).length = 24 := by
    rw [length_hexString, env.nonce.toList_length]
  have hhmacLen : (hexString tag.toList).length = 64 := by
    rw [length_hexString, tag.toList_length]
  have hnonceSize : reqNonceBytes * 2 + 1 = 25 := rfl
  have hnonceHexLen : reqNonceBytes * 2 = 24 := rfl
  rw [VerifyCall.request, hcallBuf, hcallPath, hcallBody, cstr_of_not_mem hstring, hpath, htext,
    extractHeader_timestamp hbefore hts _ (decimal_ne_nil _) (length_decimal_time htime),
    hnonceSize,
    extractHeader_nonce hbefore hts hnonce _ (List.ne_nil_of_length_pos (by omega)) (by omega),
    extractHeader_hmac hbefore hts hnonce hhmac _ (List.ne_nil_of_length_pos (by omega))
      (by omega)]
  simp only [hnonceLen, hhmacLen, hnonceHexLen, ne_eq, not_true, or_self, if_false]
  rfl

end

theorem signedStr_eq (env : SignEnv) (path body : List UInt8) :
    signedStr (decimal env.time) (hexString env.nonce.toList) path body =
      signedText env path body := by
  simp [signedStr, signedText]

section

variable {m : Mbedtls} {macKey : Bytes 32}

/-- What the dashboard signs and sends is accepted while its time stamp is fresh, unless the
nonce stands in the window. -/
theorem verifySignedRequest_text {r : ControlRequest} {host : Pi4Host} {env : SignEnv}
    {tag : Bytes 32} (htag : m.sstHmacSha256Ex macKey (signedText env r.path r.body) = some tag)
    (hbody : 0 ∉ r.body) (hlen : (r.text host env tag).length < 2048)
    (hsigned : (signedText env r.path r.body).length < 1024) {now : Int64}
    (htime : |now.toInt - env.time| ≤ 30) (stack : Bytes 32) {w : RequestWindow}
    (hnew : w.seen env.nonce = false) :
    verifySignedRequest m macKey (receivedCall (r.text host env tag) now true stack) w =
      (true, w.add env.nonce) := by
  have hrequest := request_receivedCall now true stack hbody hlen htime
  have hgenuine : (receivedCall (r.text host env tag) now true stack).genuine m macKey =
      some (r.signedRequest env tag, env.nonce) := by
    have htext : (r.signedRequest env tag).text = signedText env r.path r.body :=
      signedStr_eq env r.path r.body
    refine genuine_eq_some.mpr ⟨hrequest, scanHexPairs_hexString env.nonce,
      requestSkew_decimal htime, rfl, ?_, ?_⟩
    · rw [htext]
      exact hsigned
    · rw [htext, htag]
      exact scanHexPairs_hexString tag
  rw [verifySignedRequest_eq, hgenuine]
  simp only [hnew]
  rfl

/-- The parts of a text are those that were signed, as these are free of the separator. -/
theorem parts_of_signedText {env : SignEnv} {path body ts nonceHex path' body' : List UInt8}
    (hpath : 124 ∉ path) (hbody : 124 ∉ body)
    (h : signedStr ts nonceHex path' body' = signedText env path body) :
    path' = path ∧ body' = body := by
  have hts : 124 ∉ decimal env.time := by
    intro hmem
    cases isDigit_of_mem_decimal hmem
  have hnonce : 124 ∉ hexString env.nonce.toList := by
    intro hmem
    cases hexValue_of_mem_hexString hmem
  rw [← signedStr_eq] at h
  -- There are three separators on the right, so there are no others on the left.
  have hcount := congrArg (List.count 124) h
  simp only [signedStr, List.count_append, List.count_cons_self, List.count_eq_zero.mpr hts,
    List.count_eq_zero.mpr hnonce, List.count_eq_zero.mpr hpath,
    List.count_eq_zero.mpr hbody] at hcount
  have hts' : 124 ∉ ts := List.count_eq_zero.mp (by omega)
  have hnonce' : 124 ∉ nonceHex := List.count_eq_zero.mp (by omega)
  have hpath' : 124 ∉ path' := List.count_eq_zero.mp (by omega)
  obtain ⟨-, hafterTs⟩ := append_cons_inj hts' hts h
  obtain ⟨-, hafterNonce⟩ := append_cons_inj hnonce' hnonce hafterTs
  exact append_cons_inj hpath' hpath hafterNonce

end

/-! ## The channel -/

inductive ChannelIn where
  /-- The dashboard signs a request. -/
  | sign (env : SignEnv) (path body : List UInt8)
  /-- Some bytes arrive at the receiver. -/
  | deliver (received : List UInt8) (now : Int64) (keyReady : Bool) (stack : Bytes 32)

inductive ChannelOut where
  | signed (env : SignEnv) (path body : List UInt8)
  | accepted (path body : List UInt8)

def controlChannel (m : Mbedtls) (macKey : Bytes 32) :
    Machine RequestWindow ChannelIn ChannelOut where
  step w
    | .sign env path body => (w, [.signed env path body])
    | .deliver received now keyReady stack =>
        let c := receivedCall received now keyReady stack
        let r := verifySignedRequest m macKey c w
        (r.2, if r.1 then [.accepted c.path c.body] else [])

/-- The texts that were signed. -/
def signedTexts (t : List ChannelOut) : List (List UInt8) :=
  t.filterMap fun o =>
    match o with
    | .signed env path body => some (signedText env path body)
    | .accepted _ _ => none

/-- The rules of a run: the dashboard signs no path and no body with a separator in it, and a
tag is right only for a text that was signed. -/
def ControlRules (m : Mbedtls) (macKey : Bytes 32) (t : List ChannelOut) (_ : RequestWindow) :
    ChannelIn → Prop
  | .sign _ path body => 124 ∉ path ∧ 124 ∉ body
  | .deliver received now keyReady stack =>
      ∀ r ∈ (receivedCall received now keyReady stack).request,
        (m.sstHmacSha256Ex macKey r.text).isSome ∧
          (r.receivedHmac = m.sstHmacSha256Ex macKey r.text → r.text ∈ signedTexts t)

instance (m : Mbedtls) (macKey : Bytes 32) (t : List ChannelOut) (w : RequestWindow)
    (i : ChannelIn) : Decidable (ControlRules m macKey t w i) :=
  match i with
  | .sign _ _ _ => inferInstanceAs (Decidable (_ ∧ _))
  | .deliver _ _ _ _ => inferInstanceAs (Decidable (∀ _ ∈ _, _))

theorem subset_requestPath (buf : List UInt8) : requestPath buf ⊆ buf := by
  intro c hc
  have hread := (List.takeWhile_prefix _).subset (List.mem_of_mem_take hc)
  have hblanks := (List.dropWhile_suffix _).subset hread
  have hmethod := (List.dropWhile_suffix _).subset hblanks
  exact (List.dropWhile_suffix _).subset hmethod

section

variable {m : Mbedtls} {macKey : Bytes 32}

/-- What was signed so far has no separators in its parts. -/
theorem separated_of_reach {w₀ w : RequestWindow} {t : List ChannelOut}
    (h : (controlChannel m macKey).Reach (ControlRules m macKey) w₀ t w) {env : SignEnv}
    {path body : List UInt8} (hmem : .signed env path body ∈ t) : 124 ∉ path ∧ 124 ∉ body := by
  obtain ⟨t₁, w₁, i, -, hok, hout⟩ := h.emitted_of_mem hmem
  rcases i with ⟨env', path', body'⟩ | ⟨received, now, keyReady, stack⟩
  · cases List.mem_singleton.mp hout
    exact hok
  · simp only [controlChannel] at hout
    split at hout
    · cases List.mem_singleton.mp hout
    · cases hout

/-- What is accepted under the rules was signed with its path and its body. -/
theorem signed_of_accepted {w₀ w : RequestWindow} {t : List ChannelOut}
    (h : (controlChannel m macKey).Reach (ControlRules m macKey) w₀ t w) {received : List UInt8}
    {now : Int64} {keyReady : Bool} {stack : Bytes 32}
    (hok : ControlRules m macKey t w (.deliver received now keyReady stack))
    (haccepted :
      (verifySignedRequest m macKey (receivedCall received now keyReady stack) w).1 = true) :
    ∃ env, .signed env (receivedCall received now keyReady stack).path
      (receivedCall received now keyReady stack).body ∈ t := by
  rw [verifySignedRequest_eq] at haccepted
  rcases hgenuine : (receivedCall received now keyReady stack).genuine m macKey with
    _ | ⟨r, nonce⟩
  · rw [hgenuine] at haccepted
    cases haccepted
  obtain ⟨hrequest, -, -, -, -, hreceived⟩ := genuine_eq_some.mp hgenuine
  obtain ⟨hsome, hideal⟩ := hok r hrequest
  obtain ⟨tag, htag⟩ := Option.isSome_iff_exists.mp hsome
  rw [htag, Option.getD_some] at hreceived
  rw [htag] at hideal
  obtain ⟨o, ho, htext⟩ := List.mem_filterMap.mp (hideal hreceived)
  rcases o with ⟨env, path, body⟩ | ⟨path, body⟩
  · obtain ⟨hpath, hbody⟩ := separated_of_reach h ho
    obtain ⟨hpath, hbody⟩ :=
      parts_of_signedText hpath hbody (Option.some.inj htext).symm
    obtain ⟨hcallPath, hcallBody⟩ := parts_of_request hrequest
    have hstring : 0 ∉ (receivedCall received now keyReady stack).path :=
      fun hmem => not_mem_cstr _ (subset_requestPath _ hmem)
    rw [cstr_of_not_mem hstring, hpath] at hcallPath
    rw [printedBody_receivedCall, hbody] at hcallBody
    rw [← hcallPath, ← hcallBody]
    exact ⟨env, ho⟩
  · cases htext

end

/-- The receiver accepts what the dashboard signs and sends while the time stamp is fresh and
the nonce is a new one, and under the rules it accepts nothing else: what it accepts was
signed with that path and that body. -/
theorem control_requests_agree (m : Mbedtls) (macKey : Bytes 32) :
    (∀ (r : ControlRequest) (host : Pi4Host) (env : SignEnv) (tag : Bytes 32) (now : Int64)
        (stack : Bytes 32) (w : RequestWindow),
      m.sstHmacSha256Ex macKey (signedText env r.path r.body) = some tag →
      0 ∉ r.body → (r.text host env tag).length < 2048 →
      (signedText env r.path r.body).length < 1024 → |now.toInt - env.time| ≤ 30 →
      env.nonce ∉ w.ring.buf →
      verifySignedRequest m macKey (receivedCall (r.text host env tag) now true stack) w =
        (true, w.add env.nonce)) ∧
    ∀ (w₀ w : RequestWindow) (t : List ChannelOut),
      (controlChannel m macKey).Reach (ControlRules m macKey) w₀ t w →
      ∀ before path body after, t = before ++ .accepted path body :: after →
        ∃ env, .signed env path body ∈ before := by
  refine ⟨?_, ?_⟩
  · intro r host env tag now stack w htag hbody hlen hsigned htime hnew
    refine verifySignedRequest_text htag hbody hlen hsigned htime stack ?_
    rw [← Bool.not_eq_true, ReplayWindow.seen_iff]
    exact hnew
  · intro w₀ w t h before path body after ht
    obtain ⟨t₁, w₁, i, pre, post, hreach, hok, hout, rfl⟩ := h.emitted ht
    have hmem : .accepted path body ∈ ((controlChannel m macKey).step w₁ i).2 := by
      rw [hout]
      exact List.mem_append_right pre (.head _)
    rcases i with ⟨env, path', body'⟩ | ⟨received, now, keyReady, stack⟩
    · cases List.mem_singleton.mp hmem
    · simp only [controlChannel] at hmem
      split at hmem
      · next haccepted =>
          cases List.mem_singleton.mp hmem
          obtain ⟨env, hsigned⟩ := signed_of_accepted hreach hok haccepted
          exact ⟨env, List.mem_append_left pre hsigned⟩
      · cases hmem

def sampleEnv : SignEnv := ⟨1700000000, List.Vector.replicate 12 7⟩

def sampleHost : Pi4Host := ⟨ascii "lifi_pi.local", by decide⟩

def sampleKey : Bytes 32 := List.Vector.replicate 32 5

def sampleWindow : RequestWindow :=
  RequestWindow.initial (List.Vector.replicate 64 (Bytes.zero 12))

/-- A key that is pushed. -/
def sampleForceKey : ControlRequest :=
  .forceKey (forceKeyBody (hexString (List.replicate 8 1)) (List.replicate 16 2)
    (List.Vector.replicate 32 3))

/-- It is signed, delivered, and delivered again. -/
def sampleRun : List ChannelIn :=
  let sent := sampleForceKey.text sampleHost sampleEnv sampleKey
  [.sign sampleEnv sampleForceKey.path sampleForceKey.body,
    .deliver sent 1700000009 true (Bytes.zero 32), .deliver sent 1700000010 true (Bytes.zero 32)]

theorem control_requests_agree_forceKey :
    verifySignedRequest .transparent sampleKey
        (receivedCall (sampleForceKey.text sampleHost sampleEnv sampleKey) 1700000009
          true (Bytes.zero 32)) sampleWindow =
        (true, sampleWindow.add sampleEnv.nonce) ∧
      ∀ before path body after,
        (controlChannel .transparent sampleKey).trace sampleWindow sampleRun =
          before ++ .accepted path body :: after →
        ∃ env, .signed env path body ∈ before := by
  obtain ⟨haccepted, hsigned⟩ := control_requests_agree .transparent sampleKey
  refine ⟨?_, hsigned _ _ _ (Machine.reach_run _ ?_)⟩
  · exact haccepted sampleForceKey sampleHost sampleEnv sampleKey 1700000009 (Bytes.zero 32)
      sampleWindow rfl (by decide) (by decide +kernel) (by decide +kernel) (by decide)
      (by decide +kernel)
  · decide +kernel

end LifiAuth
