import Lsmkv.Server.Resp

/-!
# Batches (`take_batch`)

After every read the server takes every complete request off the front of its buffer.
`takeBatch_of_takes` says that this is what the parser takes one request after the other.

Two results follow.  `parse_stable_iff` says for which streams the commands do not depend on how the
stream was cut into reads: those whose lines end before they are too long to wait for, or have only
empty requests and an endless line behind them.  `takeBatch_pipeline` says that a pipeline of
encoded requests, cut anywhere, is read as the requests that are complete, and that the rest waits.
-/

namespace Lsmkv.Server

/-- Everything that could be parsed out of the buffer in one pass. -/
structure Batch where
  commands : List Command
  protocolError : Option String
  deriving DecidableEq, Repr

/-- The command of a request that is not empty. -/
def Request.command? : Request → Option Command
  | .command c => some c
  | .empty => none

section

variable (upper : Char → List Char)

/-- The loop of `take_batch`.  Every request takes a byte, so a bound on its rounds is one more than
the bytes there are. -/
def takeLoop : ℕ → Bytes → Batch × Bytes
  | 0, input => (⟨[], none⟩, input)
  | fuel + 1, input =>
    match parse upper input with
    | .ok (some (.command command, used)) =>
      let (batch, rest) := takeLoop fuel (input.drop used)
      ({ batch with commands := command :: batch.commands }, rest)
    | .ok (some (.empty, used)) => takeLoop fuel (input.drop used)
    | .ok none => (⟨[], none⟩, input)
    | .error err => (⟨[], some err.message⟩, input)

/-- Takes every complete request off the front of `input`.  Returns what is left of it too. -/
def takeBatch (input : Bytes) : Batch × Bytes := takeLoop upper (input.length + 1) input

/-- The commands that `take_batch` extracts from the reads of a stream, and the error that ends
it. -/
def takeBatches : Bytes → List Bytes → List Command × Option String
  | _, [] => ([], none)
  | input, read :: reads =>
    match takeBatch upper (input ++ read) with
    | (⟨commands, some message⟩, _) => (commands, some message)
    | (⟨commands, none⟩, rest) =>
      let (more, err) := takeBatches rest reads
      (commands ++ more, err)

end

variable {upper : Char → List Char}

theorem takeLoop_eq (fuel : ℕ) (input : Bytes) :
    takeLoop upper fuel input
      = (⟨(drain (parse upper) fuel input).1.filterMap Request.command?,
          (drain (parse upper) fuel input).2.1.map ProtocolError.message⟩,
        (drain (parse upper) fuel input).2.2) := by
  induction fuel generalizing input with
  | zero => rfl
  | succ fuel ih =>
    rw [takeLoop, drain]
    cases parse upper input with
    | error err => rfl
    | ok item =>
      cases item with
      | none => rfl
      | some item =>
        obtain ⟨request, used⟩ := item
        cases request with
        | empty => exact ih (input.drop used)
        | command command =>
          dsimp only
          rw [ih (input.drop used)]
          rfl

/-- **A batch is what the parser takes**, up to where it stops. -/
theorem takeBatch_of_takes {input rest : Bytes} {requests : List Request}
    {err : Option ProtocolError} (h : Takes (parse upper) input requests rest)
    (hstops : Stops (parse upper) rest err) :
    takeBatch upper input
      = (⟨requests.filterMap Request.command?, err.map ProtocolError.message⟩, rest) := by
  rw [takeBatch, takeLoop_eq, drain_eq' determined_parse h hstops]

theorem takeBatches_eq (input : Bytes) (reads : List Bytes) :
    takeBatches upper input reads
      = view Request.command? ProtocolError.message (feed (parse upper) input reads) := by
  induction reads generalizing input with
  | nil => rfl
  | cons read reads ih =>
    obtain ⟨requests, err, rest, htakes, hstops⟩ := exists_takes determined_parse (input ++ read)
    rw [takeBatches, takeBatch_of_takes htakes hstops]
    cases err with
    | none =>
      rw [feed_cons determined_parse rfl htakes hstops, view_append, ← ih]
      rfl
    | some err =>
      rw [feed_cons_error determined_parse rfl htakes hstops]
      rfl

/-! ### A stream in pieces -/

/-- Only empty requests are left in the stream, and behind them a line that is too long and does not
end. -/
def OnlyTooBig (upper : Char → List Char) (stream : Bytes) : Prop :=
  ∃ requests rest, Takes (parse upper) stream requests rest
    ∧ (∀ request ∈ requests, request = .empty)
    ∧ rest.head? ≠ some 0x2A ∧ 0x0A ∉ rest ∧ maxInline < rest.length

/-- Every line of the stream ends before it is too long to wait for; or nothing but empty requests
and a line that is refused follows. -/
def LinesEnd (upper : Char → List Char) (stream : Bytes) : Prop :=
  ∀ requests rest request n, Takes (parse upper) stream requests rest →
    parse upper rest = .ok (some (request, n)) →
    rest.head? = some 0x2A ∨ n ≤ maxInline + 1 ∨ OnlyTooBig upper rest

theorem filterMap_command?_eq_nil_iff (requests : List Request) :
    requests.filterMap Request.command? = [] ↔ ∀ request ∈ requests, request = .empty := by
  rw [List.filterMap_eq_nil_iff]
  refine forall₂_congr fun request _ => ?_
  cases request with
  | command command => exact ⟨(nomatch ·), (nomatch ·)⟩
  | empty => exact ⟨fun _ => rfl, fun _ => rfl⟩

/-- Where nothing is seen but the error for a line. -/
theorem view_eq_tooBig_iff (stream : Bytes) :
    view Request.command? ProtocolError.message (feed (parse upper) [] [stream])
        = ([], some tooBig.message) ↔ OnlyTooBig upper stream := by
  constructor
  · intro h
    obtain ⟨requests, err, rest, htakes, hstops⟩ := exists_takes determined_parse stream
    rw [feed_singleton determined_parse htakes hstops, view] at h
    obtain ⟨hrequests, herr⟩ := Prod.mk.inj h
    obtain ⟨⟨message⟩, rfl, rfl⟩ := Option.map_eq_some_iff.mp herr
    exact ⟨requests, rest, htakes, (filterMap_command?_eq_nil_iff requests).mp hrequests,
      parse_eq_tooBig_iff.mp hstops⟩
  · rintro ⟨requests, rest, htakes, hempty, hlong⟩
    have hstops : Stops (parse upper) rest (some tooBig) := parse_eq_tooBig_iff.mpr hlong
    rw [feed_singleton determined_parse htakes hstops, view,
      (filterMap_command?_eq_nil_iff requests).mpr hempty, Option.map_some]

/-- A line that is too long is refused before its end has come. -/
theorem parse_take_of_long {x : Bytes} {request : Request} {n : ℕ}
    (h : parse upper x = .ok (some (request, n))) (hstar : x.head? ≠ some 0x2A)
    (hlen : maxInline + 1 < n) : parse upper (x.take (maxInline + 1)) = .error tooBig := by
  obtain ⟨-, hle, -⟩ := parse_eq_some h
  obtain ⟨first, hfirst⟩ : ∃ first, x.head? = some first := by
    refine Option.isSome_iff_exists.mp (List.isSome_head?.mpr ?_)
    rintro rfl
    rw [List.length_nil] at hle
    omega
  have hne : first ≠ 0x2A := fun heq => hstar (heq ▸ hfirst)
  have hfirst' : (x.take (maxInline + 1)).head? = some first := by
    rw [List.head?_take, if_neg (Nat.succ_ne_zero _), hfirst]
  rw [parse_inline hfirst hne] at h
  rw [parse_inline hfirst' hne, parseInline_eq_error_iff, List.length_take]
  exact ⟨not_mem_take_of_parseInline h hlen, by omega, rfl⟩

theorem errorsLast_iff (stream : Bytes) :
    ErrorsLast Request.command? ProtocolError.message (parse upper) stream
      ↔ LinesEnd upper stream := by
  constructor
  · intro h requests rest request n htakes hparse
    by_contra! hlong
    obtain ⟨hstar, hlen, hseen⟩ := hlong
    refine hseen ?_
    have hview := h requests (rest.take (maxInline + 1)) (rest.drop (maxInline + 1)) tooBig
    rw [List.take_append_drop] at hview
    exact (view_eq_tooBig_iff rest).mp (hview htakes (parse_take_of_long hparse hstar hlen))
  · intro h requests x y e htakes herror
    by_cases hy : x.head? = some 0x2A ∨ 0x0A ∉ y
    · -- the error is still one when the rest of the stream is there
      have herror' := parse_error_append herror hy
      rw [feed_cons_error determined_parse (List.nil_append _) (Takes.nil _) herror']
      rfl
    · obtain ⟨hstar, hmem⟩ := not_or.mp hy
      obtain ⟨rfl, request, n, hparse, hlen⟩ :=
        parse_append_of_error herror hstar (not_not.mp hmem)
      have hstar' : (x ++ y).head? ≠ some 0x2A := by
        cases x with
        | nil => cases herror
        | cons b x => exact hstar
      refine (view_eq_tooBig_iff (x ++ y)).mpr ?_
      exact ((h requests (x ++ y) request n htakes hparse).resolve_left hstar').resolve_left
        (by omega)

/-- **What stays when more arrives**: every request, and every error but the one for a line whose
end arrives.  So the reads of a stream do not matter exactly if its lines end in time. -/
theorem parse_stable_iff (upper : Char → List Char) :
    (∀ x y request n, parse upper x = .ok (some (request, n)) →
        1 ≤ n ∧ n ≤ x.length ∧ parse upper (x ++ y) = .ok (some (request, n)))
      ∧ (∀ x y e, parse upper x = .error e →
        ((∃ e', parse upper (x ++ y) = .error e') ↔ x.head? = some 0x2A ∨ 0x0A ∉ y))
      ∧ ∀ stream, (∀ reads : List Bytes, (∀ read ∈ reads, read ≠ []) → reads.flatten = stream →
          takeBatches upper [] reads = takeBatches upper [] [stream]) ↔ LinesEnd upper stream := by
  refine ⟨fun x y request n h => ?_, fun x y e h => parse_error_append_iff h y, fun stream => ?_⟩
  · obtain ⟨hpos, hle, -⟩ := parse_eq_some h
    exact ⟨hpos, hle, determined_parse.append h y⟩
  · simp only [takeBatches_eq]
    rw [view_feed_eq_iff determined_parse parse_nil, errorsLast_iff]

/-- A line that is refused as long as its end has not come. -/
def longLine : Bytes := List.replicate (maxInline + 1) 0x61

theorem parse_longLine : parse upper longLine = .error tooBig := by
  have hfirst : longLine.head? = some 0x61 := rfl
  rw [parse_inline hfirst (by decide), parseInline_eq_error_iff, longLine, List.length_replicate,
    List.mem_replicate]
  exact ⟨fun h => absurd h.2 (by decide), Nat.lt_succ_self _, rfl⟩

/-- Parsing is not stable: the end of a line takes an error back. -/
theorem not_parse_stable :
    ¬ ∃ upper : Char → List Char,
      (∀ x y request n, parse upper x = .ok (some (request, n)) →
        1 ≤ n ∧ n ≤ x.length ∧ parse upper (x ++ y) = .ok (some (request, n)))
      ∧ (∀ x y e, parse upper x = .error e → ∃ e', parse upper (x ++ y) = .error e')
      ∧ ∀ reads reads' : List Bytes, (∀ read ∈ reads, read ≠ []) → (∀ read ∈ reads', read ≠ []) →
        reads.flatten = reads'.flatten → takeBatches upper [] reads = takeBatches upper
          [] reads' := by
  rintro ⟨upper, -, hstable, -⟩
  have herror := hstable longLine [0x0A] tooBig parse_longLine
  rw [parse_error_append_iff parse_longLine] at herror
  rcases herror with hstar | hmem
  · cases hstar
  · exact hmem List.mem_cons_self

/-! ### Arrays -/

/-- A well-formed array on the wire: it is read whole. -/
structure ArrayRequest (upper : Char → List Char) where
  bytes : Bytes
  request : Request
  star : bytes.head? = some 0x2A
  parses : parse upper bytes = .ok (some (request, bytes.length))

theorem takes_flatMap (requests : List (ArrayRequest upper)) (after : Bytes) :
    Takes (parse upper) (requests.flatMap ArrayRequest.bytes ++ after)
      (requests.map ArrayRequest.request) after := by
  induction requests with
  | nil => exact Takes.nil after
  | cons array requests ih =>
    rw [List.flatMap_cons, List.append_assoc, List.map_cons]
    refine Takes.cons (determined_parse.append array.parses _) ?_
    rw [List.drop_left]
    exact ih

/-- An array of which something is missing is waited for. -/
theorem ArrayRequest.parse_of_cut (array : ArrayRequest upper) {start rest : Bytes}
    (h : start ++ rest = array.bytes) (hrest : rest ≠ []) : parse upper start = .ok none := by
  have hwhole := array.parses
  rw [← h] at hwhole
  cases hparse : parse upper start with
  | error e =>
    -- an array that is wrong would be wrong with the rest too
    have hstar : start.head? = some 0x2A := by
      have hfirst := array.star
      cases start with
      | nil => cases hparse
      | cons b start => rwa [← h] at hfirst
    rw [parse_error_append hparse (.inl hstar)] at hwhole
    cases hwhole
  | ok item =>
    cases item with
    | none => rfl
    | some item =>
      -- a request would end where the array ends
      obtain ⟨found, used⟩ := item
      rw [determined_parse.append hparse rest] at hwhole
      obtain ⟨rfl, rfl⟩ := Prod.mk.inj (Option.some.inj (Except.ok.inj hwhole))
      have hle := determined_parse.used_le hparse
      have hpos := List.length_pos_iff.mpr hrest
      rw [List.length_append] at hle
      omega

/-! ### Pipelines -/

/-- A request as a client sends it: a list of strings within the limits of the protocol. -/
structure Sent where
  strings : List Bytes
  ne_nil : strings ≠ []
  length_le : strings.length ≤ maxArgs
  each_le : ∀ bytes ∈ strings, bytes.length ≤ maxBulk

/-- An array of bulk strings on the wire. -/
def Sent.encode (request : Sent) : Bytes := (Reply.array (request.strings.map .bulk)).encode

theorem findCrlf_append {x : Bytes} (h : 0x0D ∉ x) (y : Bytes) :
    findCrlf (x ++ crlf ++ y) = some x.length := by
  induction x with
  | nil => rfl
  | cons a x ih =>
    obtain ⟨hne, hmem⟩ := not_or.mp (mt List.mem_cons.mpr h)
    obtain ⟨b, rest, hrest⟩ : ∃ b rest, x ++ crlf ++ y = b :: rest := by
      cases x with
      | nil => exact ⟨_, _, rfl⟩
      | cons b x => exact ⟨_, _, rfl⟩
    rw [List.cons_append, List.cons_append, hrest, findCrlf, if_neg fun heq => hne heq.1.symm,
      ← hrest, ih hmem, Option.map_some, List.length_cons]

/-- The line with the number that a marker announces. -/
theorem line_decimal (before after : Bytes) (marker : UInt8) (n : ℕ) :
    line (before ++ marker :: (decimal n ++ crlf ++ after)) (before.length + 1)
      = some (decimal n, (before ++ marker :: (decimal n ++ crlf)).length) := by
  have hmem : 0x0D ∉ decimal n := fun h => absurd ((decimal_digits n).2 _ h).1 (by decide)
  have hlen : before.length + 1 = (before ++ [marker]).length := by rw [List.length_append]; rfl
  have hnext : (before ++ marker :: (decimal n ++ crlf)).length
      = before.length + 1 + (decimal n).length + 2 := by
    simp only [List.length_append, List.length_cons, crlf, List.length_nil]
    omega
  rw [line, if_pos (by simp only [List.length_append, List.length_cons]; omega), hnext]
  dsimp only
  rw [List.append_cons, hlen, List.drop_left, findCrlf_append hmem, Option.map_some,
    List.append_assoc, List.take_left]

theorem integer_bounded {n limit : ℕ} (h : n ≤ limit) (hlimit : limit < i64Limit) :
    (integer (decimal n)).bind (bounded limit) = some n := by
  rw [integer_decimal (h.trans_lt hlimit), Option.bind_some, bounded, if_pos ⟨by omega, by omega⟩,
    Int.toNat_natCast]

theorem bulk_encode {bytes : Bytes} (h : bytes.length ≤ maxBulk) (before after : Bytes) :
    bulk (before ++ ((Reply.bulk bytes).encode ++ after)) before.length
      = .ok (some (bytes, before.length + (Reply.bulk bytes).encode.length)) := by
  -- the line with the length, and what follows it
  set lead := before ++ 0x24 :: (decimal bytes.length ++ crlf) with hlead
  have hinput : before ++ ((Reply.bulk bytes).encode ++ after)
      = before ++ 0x24 :: (decimal bytes.length ++ crlf ++ (bytes ++ crlf ++ after)) := by
    simp only [Reply.encode, List.cons_append, List.append_assoc]
  have hpayload : before ++ 0x24 :: (decimal bytes.length ++ crlf ++ (bytes ++ crlf ++ after))
      = lead ++ (bytes ++ (crlf ++ after)) := by
    simp only [hlead, List.cons_append, List.append_assoc]
  have hnext :
      before.length + (Reply.bulk bytes).encode.length = lead.length + bytes.length + 2 := by
    simp only [Reply.encode, hlead, List.length_append, List.length_cons, crlf, List.length_nil]
    omega
  have hshort : ¬ (lead ++ (bytes ++ (crlf ++ after))).length < lead.length + bytes.length + 2 := by
    simp only [List.length_append, crlf, List.length_cons, List.length_nil]
    omega
  have hend : ((lead ++ (bytes ++ (crlf ++ after))).drop (lead.length + bytes.length)).take 2
      = crlf := by
    rw [← List.append_assoc, List.drop_left' (List.length_append ..)]
    rfl
  rw [hinput, bulk, List.getElem?_append_right le_rfl, Nat.sub_self, List.getElem?_cons_zero]
  dsimp only
  rw [if_neg (not_not.mpr rfl), line_decimal, ← hlead]
  dsimp only
  rw [integer_bounded h (by decide), hpayload, hnext]
  dsimp only
  rw [if_neg hshort, if_neg (not_not.mpr hend), List.drop_left, List.take_left]

theorem bulks_encodeAll {strings : List Bytes} (h : ∀ bytes ∈ strings, bytes.length ≤ maxBulk)
    (before after : Bytes) :
    bulks (before ++ (Reply.encodeAll (strings.map .bulk) ++ after)) strings.length before.length
      = .ok (some (strings, before.length + (Reply.encodeAll (strings.map .bulk)).length)) := by
  induction strings generalizing before with
  | nil => rfl
  | cons bytes strings ih =>
    obtain ⟨hbytes, hstrings⟩ := List.forall_mem_cons.mp h
    have hnext := ih hstrings (before ++ (Reply.bulk bytes).encode)
    rw [List.append_assoc, List.length_append] at hnext
    rw [List.map_cons, Reply.encodeAll, List.append_assoc, List.length_cons, bulks,
      bulk_encode hbytes]
    dsimp only
    rw [hnext]
    dsimp only
    rw [List.length_append, Nat.add_assoc]

theorem Sent.encode_eq (request : Sent) :
    request.encode = 0x2A :: (decimal request.strings.length ++ crlf
      ++ Reply.encodeAll (request.strings.map .bulk)) := by
  simp only [Sent.encode, Reply.encode, List.length_map, List.cons_append]

theorem Sent.commandOf_eq (request : Sent) :
    commandOf upper request.strings
      = ⟨commandName upper (request.strings.head request.ne_nil), request.strings.tail⟩ := by
  rw [commandOf, List.headD_eq_head?_getD, List.head?_eq_some_head request.ne_nil, Option.getD_some]

variable (upper) in
/-- **A request that was sent is read back**, whatever follows it. -/
theorem parse_encode (request : Sent) (after : Bytes) :
    parse upper (request.encode ++ after)
      = .ok (some (.command (commandOf upper request.strings), request.encode.length)) := by
  set count := request.strings.length with hcount
  set lead := 0x2A :: (decimal count ++ crlf) with hlead
  set body := Reply.encodeAll (request.strings.map .bulk) with hbody
  have hencode : request.encode = lead ++ body := by
    rw [request.encode_eq, hlead, List.cons_append]
  have hfirst : (request.encode ++ after).head? = some 0x2A := by
    rw [hencode, hlead]
    rfl
  have hline : line (request.encode ++ after) 1 = some (decimal count, lead.length) := by
    have hnumber := line_decimal [] (body ++ after) 0x2A count
    simp only [List.nil_append, List.length_nil, Nat.zero_add] at hnumber
    rw [hencode, hlead, List.cons_append, List.cons_append, List.append_assoc, hnumber]
  have hpos : 0 < count := List.length_pos_iff.mpr request.ne_nil
  have hbound := integer_bounded request.length_le (by decide)
  rw [← hcount, integer_decimal (request.length_le.trans_lt (by decide)), Option.bind_some]
    at hbound
  rw [parse_array hfirst, parseArray, hline]
  dsimp only
  rw [integer_decimal (request.length_le.trans_lt (by decide))]
  dsimp only
  rw [if_neg (by omega), hbound]
  dsimp only
  rw [hencode, List.append_assoc, hcount, hbody, bulks_encodeAll request.each_le lead after,
    List.length_append]

/-- What was sent, as an array on the wire. -/
def Sent.toArray (upper : Char → List Char) (request : Sent) : ArrayRequest upper where
  bytes := request.encode
  request := .command (commandOf upper request.strings)
  star := by rw [request.encode_eq]; rfl
  parses := by
    have h := parse_encode upper request []
    rwa [List.append_nil] at h

/-- **A pipeline is read as what was sent**, and of a request that is cut anywhere nothing is taken
and nothing is held against it. -/
theorem takeBatch_pipeline (upper : Char → List Char) (requests : List Sent) (last : Sent)
    {start rest : Bytes} (hcut : start ++ rest = last.encode) (hrest : rest ≠ []) :
    takeBatch upper (requests.flatMap Sent.encode ++ start)
        = (⟨requests.map fun request =>
            ⟨commandName upper (request.strings.head request.ne_nil), request.strings.tail⟩,
          none⟩, start)
      ∧ parse upper start = .ok none := by
  have hstops : Stops (parse upper) start none := (last.toArray upper).parse_of_cut hcut hrest
  have hbytes : requests.flatMap Sent.encode
      = (requests.map (Sent.toArray upper)).flatMap ArrayRequest.bytes := by
    rw [List.flatMap_map]
    rfl
  have hcommands : (Request.command? ∘ ArrayRequest.request) ∘ Sent.toArray upper
      = some ∘ fun request : Sent =>
        ⟨commandName upper (request.strings.head request.ne_nil), request.strings.tail⟩ :=
    funext fun request => congrArg some request.commandOf_eq
  refine ⟨?_, hstops⟩
  rw [hbytes, takeBatch_of_takes (takes_flatMap _ start) hstops, List.filterMap_map,
    List.filterMap_map, hcommands, List.filterMap_eq_map]
  rfl

/-- The request `PING`. -/
def pingRequest : Sent := ⟨[[0x50, 0x49, 0x4E, 0x47]], by decide, by decide, by decide⟩

theorem takeBatch_pipeline_ping :
    [0x2A, 0x31, 0x0D] ++ pingRequest.encode.drop 3 = pingRequest.encode
    ∧ pingRequest.encode.drop 3 ≠ []
      ∧ takeBatch (fun c => [c.toUpper]) ([pingRequest, pingRequest].flatMap Sent.encode
        ++ [0x2A, 0x31, 0x0D])
        = (⟨[⟨"PING", []⟩, ⟨"PING", []⟩], none⟩, [0x2A, 0x31, 0x0D]) := by
  have hcut : [0x2A, 0x31, 0x0D] ++ pingRequest.encode.drop 3 = pingRequest.encode := by
    decide +kernel
  have hrest : pingRequest.encode.drop 3 ≠ [] := by decide +kernel
  have hname : commandName (fun c => [c.toUpper]) [0x50, 0x49, 0x4E, 0x47] = "PING" := by
    decide +kernel
  refine ⟨hcut, hrest, ?_⟩
  rw [(takeBatch_pipeline _ [pingRequest, pingRequest] pingRequest hcut hrest).1, ← hname]
  rfl

end Lsmkv.Server
