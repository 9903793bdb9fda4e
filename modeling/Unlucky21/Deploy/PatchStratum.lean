import Unlucky21.Lib.Patching

/-!
# patch-stratum.py

The sixteen rewrites of three files of the gateway, in the order of the script.
Each reads its file anew. A file is its text: a content that cannot be decoded
ends the script when it is read. What the script prints is left out.
-/

namespace Deploy

open Rewriting

-- A text of n characters is checked at a depth of about n.
set_option maxRecDepth 20000

/-! ## Files and texts -/

inductive File where
  | stratumC
  | stratumH
  | coinbaserH
deriving DecidableEq

/-- A string with its characters spelt out, which is what the checks on it
compute with. -/
structure Text where
  string : String
  chars : List Char
  chars_eq : string = String.ofList chars

/-- Text mode: any line end is read as a line feed. -/
def readText : List Char → List Char
  | [] => []
  | '\r' :: '\n' :: s => '\n' :: readText s
  | '\r' :: s => '\n' :: readText s
  | c :: s => c :: readText s

/-- `replace("\t\n", "\n")`: blank lines lose their tab. -/
def untab (s : List Char) : List Char := Rewrite.all ⟨['\t', '\n'], ['\n']⟩ s

/-- `patch_file`, which most of the script also has written out in place. -/
def patchFile (target replacement marker content : List Char) : Outcome Char :=
  guarded marker [⟨target, replacement⟩] content

/-! ## 0. datum_stratum.c: include datum_reward_socket.h -/

def includeMarker : Text := ⟨"\"datum_reward_socket.h\"", _, rfl⟩

def includeTarget : Text := ⟨"#include \"datum_coinbaser.h\"", _, rfl⟩

def includeReplacement : Text := ⟨
"#include \"datum_coinbaser.h\"\n#include \"datum_reward_socket.h\"", _, rfl⟩

/-- Without the target the content is written back as it was read. -/
def patch0 (sc0 : List Char) : Outcome Char :=
  guardedOrSame includeMarker.chars ⟨includeTarget.chars, includeReplacement.chars⟩ sc0

/-! ## 1. datum_coinbaser.h: declare datum_generate_personal_coinb2 -/

def declarationMarker : Text := ⟨"datum_generate_personal_coinb2", _, rfl⟩

def endif : Text := ⟨"#endif", _, rfl⟩

def declaration : Text := ⟨
"
/* Unlucky21: build a personalized coinb2 for a specific miner address.
 * Finder slot (output[0]) uses btc_addr instead of the shared pool placeholder.
 * Defined in datum_coinbaser.c. */
int datum_generate_personal_coinb2(
    T_DATUM_STRATUM_JOB *s,
    const char          *btc_addr,
    char                *coinb2_out,
    unsigned char       *coinb2_bin_out,
    int                 *len_out
);

", _, rfl⟩

def patch1 (cbh : List Char) : Outcome Char :=
  guardedBeforeLast declarationMarker.chars endif.chars declaration.chars cbh

/-! ## 2. datum_stratum.h: per-miner personal coinb2 fields -/

def fieldsMarker : Text := ⟨"personal_coinb2", _, rfl⟩

def stratumHTarget : Text := ⟨"\tunsigned char coinbase_selection;", _, rfl⟩

def stratumHAddition : Text := ⟨
"
\t/* Unlucky21: per-miner personalized coinb2 — finder slot = connecting miner's address.
\t * Regenerated lazily in send_mining_notify when the stratum job changes.
\t * See datum_generate_personal_coinb2() in datum_coinbaser.c. */
\tchar          personal_coinb2[STRATUM_COINBASE2_MAX_LEN];
\tunsigned char personal_coinb2_bin[STRATUM_COINBASE2_MAX_LEN >> 1];
\tint           personal_coinb2_len;
\tbool          personal_coinb2_valid;
\tint           personal_coinb2_job_index;
", _, rfl⟩

def patch2 (content : List Char) : Outcome Char :=
  patchFile stratumHTarget.chars (stratumHTarget.chars ++ stratumHAddition.chars)
    fieldsMarker.chars content

/-! ## 3. datum_stratum.c: send_mining_notify sends the personal coinb2 -/

def coinb2SendMarker : Text := ⟨"_personal_cb2_new", _, rfl⟩

def coinb2SendTarget : Text := ⟨"\tdatum_socket_send_string_to_client(c, cb->coinb2);", _, rfl⟩

/-- What an earlier version of the patch left, without `_personal_cb2_new`. -/
def coinb2SendTargetV1 : Text := ⟨
"\t/* Unlucky21: use per-miner personalized coinb2 (finder slot = miner address) */
\t\x7b
\t\tconst char *coinb2_to_send = cb->coinb2;
\t\tif (!new_block && m->last_auth_username[0] != '\\0' &&
\t\t\t\tj->available_coinbase_outputs_count > 0) \x7b
\t\t\tif (!m->personal_coinb2_valid ||
\t\t\t\t\tm->personal_coinb2_job_index != j->global_index) \x7b
\t\t\t\tchar _btc[REWARD_ADDR_LEN] = \x7b0\x7d;
\t\t\t\tconst char *_dot = strchr(m->last_auth_username, '.');
\t\t\t\tif (_dot) \x7b
\t\t\t\t\tsize_t _n = (size_t)(_dot - m->last_auth_username);
\t\t\t\t\tif (_n >= REWARD_ADDR_LEN) _n = REWARD_ADDR_LEN - 1;
\t\t\t\t\tmemcpy(_btc, m->last_auth_username, _n);
\t\t\t\t\x7d else \x7b
\t\t\t\t\tstrncpy(_btc, m->last_auth_username, REWARD_ADDR_LEN - 1);
\t\t\t\t\x7d
\t\t\t\tm->personal_coinb2_valid =
\t\t\t\t\tdatum_generate_personal_coinb2(j, _btc,
\t\t\t\t\t\tm->personal_coinb2,
\t\t\t\t\t\tm->personal_coinb2_bin,
\t\t\t\t\t\t&m->personal_coinb2_len) > 0;
\t\t\t\tm->personal_coinb2_job_index = j->global_index;
\t\t\t\tDLOG_DEBUG(\"Personal coinb2 %s for %s (job %d)\",
\t\t\t\t\tm->personal_coinb2_valid ? \"built\" : \"failed\",
\t\t\t\t\t_btc, j->global_index);
\t\t\t\x7d
\t\t\tif (m->personal_coinb2_valid)
\t\t\t\tcoinb2_to_send = m->personal_coinb2;
\t\t\x7d
\t\tdatum_socket_send_string_to_client(c, coinb2_to_send);
\t\x7d
", _, rfl⟩

def coinb2SendReplacement : Text := ⟨
"\t/* Unlucky21: use per-miner personalized coinb2 (finder slot = miner address) */
\t/* v2: _personal_cb2_new forces clean_jobs=true on first build to prevent */
\t/* merkle-root mismatch when miner was mining against the shared coinb2.   */
\tbool _personal_cb2_new = false;
\t\x7b
\t\tconst char *coinb2_to_send = cb->coinb2;
\t\tif (!new_block && m->last_auth_username[0] != '\\0' &&
\t\t\t\tj->available_coinbase_outputs_count > 0) \x7b
\t\t\tif (!m->personal_coinb2_valid ||
\t\t\t\t\tm->personal_coinb2_job_index != j->global_index) \x7b
\t\t\t\tchar _btc[REWARD_ADDR_LEN] = \x7b0\x7d;
\t\t\t\tconst char *_dot = strchr(m->last_auth_username, '.');
\t\t\t\tif (_dot) \x7b
\t\t\t\t\tsize_t _n = (size_t)(_dot - m->last_auth_username);
\t\t\t\t\tif (_n >= REWARD_ADDR_LEN) _n = REWARD_ADDR_LEN - 1;
\t\t\t\t\tmemcpy(_btc, m->last_auth_username, _n);
\t\t\t\t\x7d else \x7b
\t\t\t\t\tstrncpy(_btc, m->last_auth_username, REWARD_ADDR_LEN - 1);
\t\t\t\t\x7d
\t\t\t\tm->personal_coinb2_valid =
\t\t\t\t\tdatum_generate_personal_coinb2(j, _btc,
\t\t\t\t\t\tm->personal_coinb2,
\t\t\t\t\t\tm->personal_coinb2_bin,
\t\t\t\t\t\t&m->personal_coinb2_len) > 0;
\t\t\t\tm->personal_coinb2_job_index = j->global_index;
\t\t\t\tif (m->personal_coinb2_valid) _personal_cb2_new = true;
\t\t\t\tDLOG_DEBUG(\"Personal coinb2 %s for %s (job %d)\",
\t\t\t\t\tm->personal_coinb2_valid ? \"built\" : \"failed\",
\t\t\t\t\t_btc, j->global_index);
\t\t\t\x7d
\t\t\tif (m->personal_coinb2_valid)
\t\t\t\tcoinb2_to_send = m->personal_coinb2;
\t\t\x7d
\t\tdatum_socket_send_string_to_client(c, coinb2_to_send);
\t\x7d
", _, rfl⟩

def patch3 (sc_tmp : List Char) : Outcome Char :=
  guarded coinb2SendMarker.chars
    [⟨coinb2SendTargetV1.chars, coinb2SendReplacement.chars⟩,
      ⟨coinb2SendTarget.chars, coinb2SendReplacement.chars⟩] sc_tmp

/-! ## 3b. datum_stratum.c: clean_jobs when the personal coinb2 is new -/

def cleanJobsMarker : Text := ⟨"_personal_cb2_new) \x7b", _, rfl⟩

def cleanJobsTarget : Text := ⟨
"\tif ((clean) || (quickdiff) || (new_block)) \x7b
\t\tdatum_socket_send_string_to_client(c, \"true]\x7d\\n\");
\t\x7d else \x7b
\t\tdatum_socket_send_string_to_client(c, \"false]\x7d\\n\");
\t\x7d
", _, rfl⟩

def cleanJobsReplacement : Text := ⟨
"\tif ((clean) || (quickdiff) || (new_block) || _personal_cb2_new) \x7b
\t\tdatum_socket_send_string_to_client(c, \"true]\x7d\\n\");
\t\x7d else \x7b
\t\tdatum_socket_send_string_to_client(c, \"false]\x7d\\n\");
\t\x7d
", _, rfl⟩

def patch3b (content : List Char) : Outcome Char :=
  patchFile cleanJobsTarget.chars cleanJobsReplacement.chars cleanJobsMarker.chars content

/-! ## 4. datum_stratum.c: block assembly uses the personal coinb2_bin -/

def assemblyMarker : Text := ⟨"coinb2_len_use", _, rfl⟩

def assemblyTarget : Text := ⟨
"\tmemcpy(&full_cb_txn[0], cb->coinb1_bin, cb->coinb1_len);
\tmemcpy(&full_cb_txn[cb->coinb1_len], extranonce_bin, 12);
\tmemcpy(&full_cb_txn[cb->coinb1_len+12], cb->coinb2_bin, cb->coinb2_len);", _, rfl⟩

def assemblyReplacement : Text := ⟨
"\tmemcpy(&full_cb_txn[0], cb->coinb1_bin, cb->coinb1_len);
\tmemcpy(&full_cb_txn[cb->coinb1_len], extranonce_bin, 12);
\t/* Unlucky21: use personal coinb2 so the finder slot matches what was sent to the miner */
\tint coinb2_len_use = cb->coinb2_len;
\tif (!empty_work && m->personal_coinb2_valid &&
\t\t\tm->personal_coinb2_job_index == job->global_index) \x7b
\t\tmemcpy(&full_cb_txn[cb->coinb1_len+12],
\t\t\tm->personal_coinb2_bin, m->personal_coinb2_len);
\t\tcoinb2_len_use = m->personal_coinb2_len;
\t\x7d else \x7b
\t\tmemcpy(&full_cb_txn[cb->coinb1_len+12], cb->coinb2_bin, cb->coinb2_len);
\t\x7d", _, rfl⟩

def patch4 (content : List Char) : Outcome Char :=
  patchFile assemblyTarget.chars assemblyReplacement.chars assemblyMarker.chars content

def lengthTarget : Text := ⟨"cb->coinb1_len+12+cb->coinb2_len", _, rfl⟩

def lengthReplacement : Text := ⟨"cb->coinb1_len+12+coinb2_len_use", _, rfl⟩

/-- The lengths that are left, wherever they are. -/
def patch4Lengths (sc : List Char) : Outcome Char :=
  everywhere ⟨lengthTarget.chars, lengthReplacement.chars⟩ sc

/-! ## 5. datum_stratum.c: datum_reward_share_submit with the true hash difficulty -/

def trueDiffMarker : Text := ⟨"true_diff_computed", _, rfl⟩

def trueDiffBlock : Text := ⟨
"\t/* -- UNLUCKY21: compute true share difficulty from SHA256d hash for best-share ranking -- */
\tdouble true_diff_computed;
\t\x7b
\t\tuint32_t h_hi = ((uint32_t)share_hash[27] << 24) | ((uint32_t)share_hash[26] << 16) |
\t\t                ((uint32_t)share_hash[25] <<  8) | ((uint32_t)share_hash[24]);
\t\tuint32_t h_lo = ((uint32_t)share_hash[23] << 24) | ((uint32_t)share_hash[22] << 16) |
\t\t                ((uint32_t)share_hash[21] <<  8) | ((uint32_t)share_hash[20]);
\t\tif (h_hi == 0) \x7b
\t\t\ttrue_diff_computed = (h_lo > 0) ? ((double)0xFFFF * 281474976710656.0 / (double)h_lo) : 1e20;
\t\t\x7d else \x7b
\t\t\ttrue_diff_computed = (double)0xFFFF0000UL / ((double)h_hi + (double)h_lo / 4294967296.0);
\t\t\x7d
\t\x7d
\t/* -- UNLUCKY21: record share in reward service -- */
\tdatum_reward_share_submit(username_s, job_diff, true_diff_computed);", _, rfl⟩

/-- The call in the form it had in between. -/
def submitJobDiff : Text := ⟨
"datum_reward_share_submit(username_s, job_diff, (double)job_diff)", _, rfl⟩

def submitJobDiffTarget : Text := ⟨
"/* -- UNLUCKY21: record share in reward service -- */
\tdatum_reward_share_submit(username_s, job_diff, (double)job_diff);", _, rfl⟩

/-- The call in its first form. -/
def submitZero : Text := ⟨"datum_reward_share_submit(username_s, job_diff, 0)", _, rfl⟩

def submitZeroTarget : Text := ⟨
"/* Unlucky21: record every accepted share in reward-service DB */
\tdatum_reward_share_submit(username_s, job_diff, 0);", _, rfl⟩

def submitAny : Text := ⟨"datum_reward_share_submit(username_s", _, rfl⟩

def t5 : Text := ⟨
"datum_socket_send_string_to_client(c, s);
\t
\t// update connection totals
\tm->share_diff_accepted += job_diff;
\tm->share_count_accepted++;", _, rfl⟩

def r5Head : Text := ⟨
"datum_socket_send_string_to_client(c, s);

\t", _, rfl⟩

def r5Tail : Text := ⟨
"
\t
\t// update connection totals
\tm->share_diff_accepted += job_diff;
\tm->share_count_accepted++;", _, rfl⟩

def r5 : List Char := r5Head.chars ++ trueDiffBlock.chars ++ r5Tail.chars

/-- An older call is upgraded where it has its comment in front, and only
written back where it does not; a call of another form is left alone. -/
def patch5 (sc5 : List Char) : Outcome Char :=
  if occurs trueDiffMarker.chars sc5 then .keep
  else if occurs submitJobDiff.chars sc5 then
    .write (Rewrite.first ⟨submitJobDiffTarget.chars, trueDiffBlock.chars⟩ sc5)
  else if occurs submitZero.chars sc5 then
    .write (Rewrite.first ⟨submitZeroTarget.chars, trueDiffBlock.chars⟩ sc5)
  else if !occurs submitAny.chars sc5 then
    if occurs t5.chars sc5 then .write (Rewrite.first ⟨t5.chars, r5⟩ sc5)
    else if occurs (untab t5.chars) sc5 then
      .write (Rewrite.first ⟨untab t5.chars, untab r5⟩ sc5)
    else .exit
  else .keep

/-! ## 6. datum_stratum.c: mining.extranonce.subscribe -/

def extMarker : Text := ⟨"mining.extranonce.subscribe", _, rfl⟩

def extTarget : Text := ⟨
"\t\t\tif (!strcmp(method, \"mining.authorize\")) \x7b
\t\t\t\ti = client_mining_authorize(c, id, params_obj);
\t\t\t\tjson_decref(j);
\t\t\t\treturn i;
\t\t\t\x7d
\t\t\t[[fallthrough]];", _, rfl⟩

def extReplacement : Text := ⟨
"\t\t\tif (!strcmp(method, \"mining.authorize\")) \x7b
\t\t\t\ti = client_mining_authorize(c, id, params_obj);
\t\t\t\tjson_decref(j);
\t\t\t\treturn i;
\t\t\t\x7d
\t\t\t/* -- UNLUCKY21: ACK extranonce.subscribe so MRR/T21 proxy sessions don't stall -- */
\t\t\tif (!strcmp(method, \"mining.extranonce.subscribe\")) \x7b
\t\t\t\tchar r[64];
\t\t\t\tsnprintf(r, sizeof(r), \"\x7b\\\"error\\\":null,\\\"id\\\":%llu,\\\"result\\\":true\x7d\\n\", (unsigned long long)id);
\t\t\t\tdatum_socket_send_string_to_client(c, r);
\t\t\t\tjson_decref(j);
\t\t\t\treturn 0;
\t\t\t\x7d
\t\t\t[[fallthrough]];", _, rfl⟩

def patch6 (sc6 : List Char) : Outcome Char :=
  patchFile extTarget.chars extReplacement.chars extMarker.chars sc6

/-! ## 7. datum_stratum.c: version rolling for clients that did not negotiate it -/

def vrollMarker : Text := ⟨
"UNLUCKY21: accept version bits from MRR/T21 proxy without mining.configure", _, rfl⟩

def vrollTarget : Text := ⟨
"\t\tbver |= vroll_uint;
\t\x7d
\t
\t// 0 - 4 = version", _, rfl⟩

def vrollReplacement : Text := ⟨
"\t\tbver |= vroll_uint;
\t\x7d else \x7b
\t\t/* -- UNLUCKY21: accept version bits from MRR/T21 proxy without mining.configure -- */
\t\tvroll = json_array_get(params_obj, 5);
\t\tif (vroll) \x7b
\t\t\tvroll_s = json_string_value(vroll);
\t\t\tif (vroll_s) \x7b
\t\t\t\tvroll_uint = strtoul(vroll_s, NULL, 16);
\t\t\t\tif ((vroll_uint & 0x1fffe000) == vroll_uint) \x7b
\t\t\t\t\tbver |= vroll_uint;
\t\t\t\t\x7d
\t\t\t\x7d
\t\t\x7d
\t\x7d
\t
\t// 0 - 4 = version", _, rfl⟩

def vrollTargetAlt : List Char := untab vrollTarget.chars

def patch7 (sc7 : List Char) : Outcome Char :=
  guarded vrollMarker.chars
    [⟨vrollTarget.chars, vrollReplacement.chars⟩,
      ⟨vrollTargetAlt, untab vrollReplacement.chars⟩] sc7

/-! ## 8. datum_stratum.c: job IDs carry the session epoch -/

def pjidMarker : Text := ⟨"UNLUCKY21: personalize job ID with session epoch", _, rfl⟩

def pjidTarget : Text := ⟨
"\tif (quickdiff) \x7b
\t\tsnprintf(s, sizeof(s), \"\\\"Q%s%2.2x\\\",\\\"%s\\\",\\\"\", j->job_id, cbselect, j->prevhash);
\t\x7d else \x7b
\t\tif (!new_block) \x7b
\t\t\tsnprintf(s, sizeof(s), \"\\\"%s%2.2x\\\",\\\"%s\\\",\\\"\", j->job_id, cbselect, j->prevhash);
\t\t\x7d else \x7b
\t\t\tsnprintf(s, sizeof(s), \"\\\"N%s%2.2x\\\",\\\"%s\\\",\\\"\", j->job_id, (unsigned int)255, j->prevhash); // empty coinbase for new block
\t\t\tcb = &j->subsidy_only_coinbase;
\t\t\x7d
\t\x7d
", _, rfl⟩

def pjidReplacement : Text := ⟨
"\t/* -- UNLUCKY21: personalize job ID with session epoch to detect stale-session shares -- */
\tchar _pjid[15];
\t\x7b
\t\tchar _jid_ts[9];
\t\tmemcpy(_jid_ts, j->job_id, 8);
\t\t_jid_ts[8] = 0;
\t\tuint32_t _raw_ts = (uint32_t)strtoul(_jid_ts, NULL, 16);
\t\tsnprintf(_pjid, sizeof(_pjid), \"%8.8x%s\", _raw_ts ^ m->sid_inv, j->job_id + 8);
\t\x7d
\tif (quickdiff) \x7b
\t\tsnprintf(s, sizeof(s), \"\\\"Q%s%2.2x\\\",\\\"%s\\\",\\\"\", _pjid, cbselect, j->prevhash);
\t\x7d else \x7b
\t\tif (!new_block) \x7b
\t\t\tsnprintf(s, sizeof(s), \"\\\"%s%2.2x\\\",\\\"%s\\\",\\\"\", _pjid, cbselect, j->prevhash);
\t\t\x7d else \x7b
\t\t\tsnprintf(s, sizeof(s), \"\\\"N%s%2.2x\\\",\\\"%s\\\",\\\"\", _pjid, (unsigned int)255, j->prevhash); // empty coinbase for new block
\t\t\tcb = &j->subsidy_only_coinbase;
\t\t\x7d
\t\x7d
", _, rfl⟩

def patch8 (sc8 : List Char) : Outcome Char :=
  patchFile pjidTarget.chars pjidReplacement.chars pjidMarker.chars sc8

/-! ## 9. datum_stratum.c: the session epoch is checked on submit -/

def epochCheckMarker : Text := ⟨"UNLUCKY21: session-epoch check", _, rfl⟩

def epochCheckTarget : Text := ⟨
"\tif (upk_u64le(job->job_id, 0) != upk_u64le(job_id_s, 0)) \x7b
\t\t//LOG_PRINTF(\"DEBUG: Job ID for index %u doesn't match expected in RAM. (%s vs %s)\", g_job_index, job->job_id, job_id_s);
\t\tsend_unknown_work_error(c,id);
\t\tm->share_count_rejected++;
\t\tm->share_diff_rejected+=m->last_sent_diff; // guestimate here
\t\treturn 0;
\t\x7d
", _, rfl⟩

def epochCheckReplacement : Text := ⟨
"\t/* -- UNLUCKY21: session-epoch check — stale-session shares return stale-work not H-not-zero -- */
\t\x7b
\t\tchar _recv_ts_hex[9], _stored_ts_hex[9];
\t\tmemcpy(_recv_ts_hex, job_id_s, 8); _recv_ts_hex[8] = 0;
\t\tmemcpy(_stored_ts_hex, job->job_id, 8); _stored_ts_hex[8] = 0;
\t\tuint32_t _recv_raw_ts = (uint32_t)strtoul(_recv_ts_hex, NULL, 16) ^ m->sid_inv;
\t\tuint32_t _stored_raw_ts = (uint32_t)strtoul(_stored_ts_hex, NULL, 16);
\t\tif (_recv_raw_ts != _stored_raw_ts) \x7b
\t\t\t/* share is from a previous TCP session — return stale-work, not H-not-zero */
\t\t\tsend_rejected_stale(c, id);
\t\t\tm->share_count_rejected++;
\t\t\tm->share_diff_rejected += m->last_sent_diff;
\t\t\treturn 0;
\t\t\x7d
\t\tif (memcmp(job->job_id + 8, job_id_s + 8, 6) != 0) \x7b
\t\t\t//LOG_PRINTF(\"DEBUG: Job ID for index %u doesn't match expected in RAM. (%s vs %s)\", g_job_index, job->job_id, job_id_s);
\t\t\tsend_unknown_work_error(c, id);
\t\t\tm->share_count_rejected++;
\t\t\tm->share_diff_rejected += m->last_sent_diff;
\t\t\treturn 0;
\t\t\x7d
\t\x7d
", _, rfl⟩

def patch9 (sc9 : List Char) : Outcome Char :=
  patchFile epochCheckTarget.chars epochCheckReplacement.chars epochCheckMarker.chars sc9

/-! ## 10. datum_stratum.h: prev-job personal coinb2 fields -/

def p10Marker : Text := ⟨"/* -- UNLUCKY21: prev-job personal coinb2", _, rfl⟩

def p10Target : Text := ⟨
"\tint           personal_coinb2_len;
\tbool          personal_coinb2_valid;
\tint           personal_coinb2_job_index;
", _, rfl⟩

def p10Replacement : Text := ⟨
"\tint           personal_coinb2_len;
\tbool          personal_coinb2_valid;
\tint           personal_coinb2_job_index;
\t/* -- UNLUCKY21: prev-job personal coinb2 — use to reconstruct old-job shares */
\t/* submitted during ASIC pipeline drain after a job change (S19k Pro fix). */
\tunsigned char personal_coinb2_prev_bin[STRATUM_COINBASE2_MAX_LEN >> 1];
\tint           personal_coinb2_prev_len;
\tbool          personal_coinb2_prev_valid;
\tint           personal_coinb2_prev_job_index;
", _, rfl⟩

def patch10 (sh10 : List Char) : Outcome Char :=
  patchFile p10Target.chars p10Replacement.chars p10Marker.chars sh10

/-! ## 11. datum_stratum.c: save to prev before rebuilding -/

def p11Marker : Text := ⟨
"/* -- UNLUCKY21: save current personal coinb2 as prev before rebuilding */", _, rfl⟩

def p11Target : Text := ⟨
"\t\t\tif (!m->personal_coinb2_valid ||
\t\t\t\t\tm->personal_coinb2_job_index != j->global_index) \x7b
\t\t\t\tchar _btc[REWARD_ADDR_LEN] = \x7b0\x7d;
", _, rfl⟩

def p11Replacement : Text := ⟨
"\t\t\tif (!m->personal_coinb2_valid ||
\t\t\t\t\tm->personal_coinb2_job_index != j->global_index) \x7b
\t\t\t\t/* -- UNLUCKY21: save current personal coinb2 as prev before rebuilding */
\t\t\t\t/* so old-job shares submitted during ASIC pipeline drain can reconstruct */
\t\t\t\t/* with the correct coinb2 instead of falling back to the standard one. */
\t\t\t\tif (m->personal_coinb2_valid) \x7b
\t\t\t\t\tmemcpy(m->personal_coinb2_prev_bin, m->personal_coinb2_bin,
\t\t\t\t\t\t   m->personal_coinb2_len);
\t\t\t\t\tm->personal_coinb2_prev_len = m->personal_coinb2_len;
\t\t\t\t\tm->personal_coinb2_prev_valid = true;
\t\t\t\t\tm->personal_coinb2_prev_job_index = m->personal_coinb2_job_index;
\t\t\t\t\x7d
\t\t\t\tchar _btc[REWARD_ADDR_LEN] = \x7b0\x7d;
", _, rfl⟩

def patch11 (sc11 : List Char) : Outcome Char :=
  patchFile p11Target.chars p11Replacement.chars p11Marker.chars sc11

/-! ## 12. datum_stratum.c: fall back to the prev slot on submit -/

def p12Marker : Text := ⟨"/* -- UNLUCKY21: ASIC pipeline drain", _, rfl⟩

def p12Target : Text := ⟨
"\t\x7d else \x7b
\t\tmemcpy(&full_cb_txn[cb->coinb1_len+12], cb->coinb2_bin, cb->coinb2_len);
\t\x7d", _, rfl⟩

def p12Replacement : Text := ⟨
"\t\x7d else if (!empty_work && m->personal_coinb2_prev_valid &&
\t\t\t\tm->personal_coinb2_prev_job_index == job->global_index) \x7b
\t\t/* -- UNLUCKY21: ASIC pipeline drain — use prev job personal coinb2 for old-job shares */
\t\t/* S19k Pro and similar large-pipeline ASICs keep hashing the old job for a few seconds */
\t\t/* after receiving clean_jobs=true; those shares must use the prev personal coinb2. */
\t\tmemcpy(&full_cb_txn[cb->coinb1_len+12],
\t\t\t   m->personal_coinb2_prev_bin, m->personal_coinb2_prev_len);
\t\tcoinb2_len_use = m->personal_coinb2_prev_len;
\t\x7d else \x7b
\t\tmemcpy(&full_cb_txn[cb->coinb1_len+12], cb->coinb2_bin, cb->coinb2_len);
\t\x7d", _, rfl⟩

def patch12 (sc12 : List Char) : Outcome Char :=
  patchFile p12Target.chars p12Replacement.chars p12Marker.chars sc12

/-! ## 13. datum_stratum.c: no personal coinb2 on quickdiff -/

def p13Marker : Text := ⟨"(!quickdiff || m->personal_coinb2_valid) &&", _, rfl⟩

def p13Target : Text := ⟨
"\t\t\tif (!m->personal_coinb2_valid ||
\t\t\t\t\tm->personal_coinb2_job_index != j->global_index) \x7b
\t\t\t\t/* -- UNLUCKY21: save current personal coinb2 as prev before rebuilding */
", _, rfl⟩

def p13Replacement : Text := ⟨
"\t\t\t/* -- UNLUCKY21 Patch 13: skip personal coinb2 build on quickdiff when not */
\t\t\t/* yet established. Miner has standard coinb2 from subscribe time; building */
\t\t\t/* personal coinb2 for the same job_index via quickdiff causes H-not-zero  */
\t\t\t/* on ASIC pipeline drain shares (they used standard coinb2). Personal     */
\t\t\t/* coinb2 is established cleanly on the next real (non-quickdiff) job.     */
\t\t\tif ((!quickdiff || m->personal_coinb2_valid) &&
\t\t\t\t\t(!m->personal_coinb2_valid ||
\t\t\t\t\tm->personal_coinb2_job_index != j->global_index)) \x7b
\t\t\t\t/* -- UNLUCKY21: save current personal coinb2 as prev before rebuilding */
", _, rfl⟩

def patch13 (sc13 : List Char) : Outcome Char :=
  patchFile p13Target.chars p13Replacement.chars p13Marker.chars sc13

/-! ## The script -/

def patches : List (File × (List Char → Outcome Char)) :=
  [(.stratumC, patch0), (.coinbaserH, patch1), (.stratumH, patch2), (.stratumC, patch3),
    (.stratumC, patch3b), (.stratumC, patch4), (.stratumC, patch4Lengths), (.stratumC, patch5),
    (.stratumC, patch6), (.stratumC, patch7), (.stratumC, patch8), (.stratumC, patch9),
    (.stratumH, patch10), (.stratumC, patch11), (.stratumC, patch12), (.stratumC, patch13)]

/-- A whole run; `none` when it exits with an error. -/
def patchStratum (disk : File → List Char) : Option (File → List Char) :=
  Runs.run (fun disk e => patch readText disk e.1 e.2) disk patches

end Deploy
